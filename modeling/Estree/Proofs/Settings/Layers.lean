import Estree.Proofs.Settings.Sources

/-!
What the files can do to a flag that the environment sets.

A variable beats the files, but how it is read depends on them: as a word for a switch
where they leave a switch, and as it stands where they leave anything else.  Main
statement: `environment_over_files`.
-/

namespace Estree

namespace Settings

theorem last?_isSome {values : List (Text × Value)} {name : Text} :
    (last? values name).isSome ↔ name ∈ values.map Prod.fst := by
  rw [← not_iff_not, Option.not_isSome_iff_eq_none, last?, Entries.lookup_eq_none,
    List.map_reverse, List.mem_reverse]

/-- A variable as a flag that has such a value without it. -/
def readAs? (text : Text) : Value → Option FlagValue
  | .bool _ => (switch? text).map .switch
  | _ => some (.word text)

theorem switch_of_default {name : Text} (h : name ∈ defaultTable.keys) :
    ∃ b, defaultTable.get? name = some (.bool b) := by
  obtain ⟨v, hv⟩ := Option.isSome_iff_exists.mp (Dict.get?_isSome.mpr h)
  have hmem : v ∈ defaultTable.entries.map Prod.snd :=
    List.mem_map_of_mem (Entries.mem_of_lookup hv)
  have hvalues : defaultTable.entries.map Prod.snd =
      [.bool true, .bool true, .bool false, .bool false, .bool false] := rfl
  rw [hvalues] at hmem
  rw [hv]
  simp only [List.mem_cons, List.not_mem_nil, or_false] at hmem
  rcases hmem with rfl | rfl | rfl | rfl | rfl <;> exact ⟨_, rfl⟩

namespace Given

variable {g g' : Given} {name text : Text}

/-- The value that the files have for a name, the file that is asked for first. -/
def inFiles? (g : Given) (name : Text) : Option Value :=
  (last? g.asked name).or (last? g.project name)

def fileNames (g : Given) : List Text := g.project.map Prod.fst ++ g.asked.map Prod.fst

/-- The flag is a switch before the environment is asked. -/
def LeavesSwitch (g : Given) (name : Text) : Prop := ∃ b, g.lower? name = some (.bool b)

theorem lower?_eq (g : Given) (name : Text) :
    g.lower? name = (g.inFiles? name).or (defaultTable.get? name) := by
  rw [lower?, inFiles?, Option.or_assoc]

theorem inFiles?_isSome : (g.inFiles? name).isSome ↔ name ∈ g.fileNames := by
  rw [inFiles?, fileNames, Option.isSome_or, Bool.or_eq_true, last?_isSome, last?_isSome,
    List.mem_append, or_comm]

theorem lower?_isSome :
    (g.lower? name).isSome ↔ name ∈ g.fileNames ∨ name ∈ defaultTable.keys := by
  rw [lower?_eq, Option.isSome_or, Bool.or_eq_true, inFiles?_isSome, Dict.get?_isSome]

theorem mem_lowerNames : name ∈ g.lowerNames ↔ (g.lower? name).isSome := by
  rw [lowerNames, List.mem_eraseDups, List.mem_append, ← fileNames, lower?_isSome, or_comm]

theorem known_of_leavesSwitch (h : g.LeavesSwitch name) : (g.lower? name).isSome := by
  obtain ⟨b, hb⟩ := h
  rw [hb]
  rfl

theorem read_switch (h : g.LeavesSwitch name) :
    (g.lower? name).bind (readAs? text) = (switch? text).map .switch := by
  obtain ⟨b, hb⟩ := h
  rw [hb]
  rfl

theorem read_word (hknown : (g.lower? name).isSome) (h : ¬ g.LeavesSwitch name) :
    (g.lower? name).bind (readAs? text) = some (.word text) := by
  obtain ⟨current, hcurrent⟩ := Option.isSome_iff_exists.mp hknown
  rw [hcurrent]
  cases current with
  | bool b => exact absurd ⟨b, hcurrent⟩ h
  | _ => rfl

theorem leavesSwitch_of_default (hname : name ∈ defaultTable.keys)
    (hfiles : ∀ v, g.inFiles? name = some v → ∃ b, v = .bool b) : g.LeavesSwitch name := by
  rw [LeavesSwitch, lower?_eq]
  cases hfile : g.inFiles? name with
  | none => exact switch_of_default hname
  | some v =>
    obtain ⟨b, rfl⟩ := hfiles v hfile
    exact ⟨b, rfl⟩

end Given

section Loading

variable {src src' : Sources} {config config' : Option Text} {overrides : List (Text × Value)}
  {g g' : Given} {s s' : Settings} {name text : Text} {on : Bool}

theorem given_eq_ok (hg : given src config overrides = .ok g) :
    g.env = src.env ∧ g.overrides = overrides := by
  obtain ⟨project, -, hg⟩ := Logged.bind_eq_ok.mp hg
  obtain ⟨asked, -, hg⟩ := Logged.bind_eq_ok.mp hg
  cases hg
  exact ⟨rfl, rfl⟩

theorem load_eq_ok (hg : given src config overrides = .ok g)
    (hs : (load src config overrides).collect.1 = .ok s) :
    g.stop? = none ∧ ∀ name, s.get? name = (g.final? name).bind FlagValue.ofValue? := by
  have hload : g.settings = .ok s := by
    rw [collect_load, hg] at hs
    exact hs
  have hsettings := g.settings_eq
  cases hstop : g.stop? with
  | some stop =>
    rw [hstop] at hsettings
    cases hload.symm.trans hsettings
  | none =>
    rw [hstop] at hsettings
    obtain ⟨t, ht, -, hvalues⟩ := hsettings
    cases hload.symm.trans ht
    refine ⟨rfl, fun name => ?_⟩
    rw [← hvalues name]
    cases s.get? name <;> simp

/-- Where settings are loaded, the variable of a switch is a word for one. -/
theorem spelt_of_load (hg : given src config overrides = .ok g)
    (hs : (load src config overrides).collect.1 = .ok s)
    (hvariable : src.env.lookup (variableOf name) = some text)
    (hswitch : g.LeavesSwitch name) : ∃ on, switch? text = some on := by
  obtain ⟨b, hb⟩ := hswitch
  -- Any other text would have stopped the loading as a misspelt switch.
  have hnone := (Option.or_eq_none_iff.mp (load_eq_ok hg hs).1).1
  rw [Option.map_eq_none_iff, List.findSome?_eq_none_iff] at hnone
  have hspelt := hnone name (Given.mem_lowerNames.mpr (by rw [hb]; rfl))
  rw [hb, (given_eq_ok hg).1] at hspelt
  cases hword : switch? text with
  | some on => exact ⟨on, rfl⟩
  | none => simp [misspelt?, hvariable, hword] at hspelt

/-- A flag that the environment sets, and nothing after it, is its variable, read as what
the files leave for the flag suggests. -/
theorem get?_of_variable (hg : given src config overrides = .ok g)
    (hs : (load src config overrides).collect.1 = .ok s)
    (hvariable : src.env.lookup (variableOf name) = some text)
    (hlast : name ∉ overrides.map Prod.fst) :
    s.get? name = (g.lower? name).bind (readAs? text) := by
  obtain ⟨henv, hoverrides⟩ := given_eq_ok hg
  have hnone : last? g.overrides name = none := by
    rwa [hoverrides, ← Option.not_isSome_iff_eq_none, last?_isSome]
  rw [(load_eq_ok hg hs).2, Given.final?, hnone, Option.none_or]
  cases hlower : g.lower? name with
  | none => rfl
  | some current =>
    simp only [environment?, henv, hvariable, Option.bind_some, Option.map_some]
    cases current with
    | bool b =>
      obtain ⟨on, hon⟩ := spelt_of_load hg hs hvariable ⟨b, hlower⟩
      rw [readAs?, hon]
      rfl
    | _ => rfl

theorem read_ne (hswitch : g.LeavesSwitch name) (hword : switch? text = some on)
    (hknown : (g'.lower? name).isSome) (hnot : ¬ g'.LeavesSwitch name) :
    (g.lower? name).bind (readAs? text) ≠ (g'.lower? name).bind (readAs? text) := by
  rw [Given.read_switch hswitch, Given.read_word hknown hnot, hword]
  simp

/-- What the environment says stands over the files as far as they agree on which flags
are switches.  A variable of a standard flag that is a word for a switch makes it that
switch, if the files have nothing but switches for it. -/
theorem environment_over_files (hg : given src config overrides = .ok g)
    (hg' : given src' config' overrides = .ok g') (henv : src'.env = src.env)
    (hnames : ∀ name, name ∈ g'.fileNames ↔ name ∈ g.fileNames)
    (hs : (load src config overrides).collect.1 = .ok s)
    (hs' : (load src' config' overrides).collect.1 = .ok s')
    (hvariable : src.env.lookup (variableOf name) = some text)
    (hlast : name ∉ overrides.map Prod.fst) :
    (s.get? name = s'.get? name ↔ (g.LeavesSwitch name ↔ g'.LeavesSwitch name)) ∧
    s.get? name = (g.lower? name).bind (readAs? text) ∧
    (name ∈ defaultTable.keys → (∀ v, g.inFiles? name = some v → ∃ b, v = .bool b) →
      ∀ on, switch? text = some on → s.get? name = some (.switch on)) := by
  have hvariable' : src'.env.lookup (variableOf name) = some text := henv ▸ hvariable
  have hread := get?_of_variable hg hs hvariable hlast
  have hread' := get?_of_variable hg' hs' hvariable' hlast
  refine ⟨?_, hread, fun hname hfiles on hon => ?_⟩
  · rw [hread, hread']
    have hknown : (g.lower? name).isSome ↔ (g'.lower? name).isSome := by
      rw [Given.lower?_isSome, Given.lower?_isSome, hnames]
    -- The same text is a switch after one set of files and a word after the other exactly if
    -- one leaves a switch and the other does not.
    by_cases h : g.LeavesSwitch name <;> by_cases h' : g'.LeavesSwitch name
    · simp only [h, h', Given.read_switch]
    · obtain ⟨on, hon⟩ := spelt_of_load hg hs hvariable h
      have hne := read_ne h hon (hknown.mp (Given.known_of_leavesSwitch h)) h'
      exact iff_of_false hne fun hiff => h' (hiff.mp h)
    · obtain ⟨on, hon⟩ := spelt_of_load hg' hs' hvariable' h'
      have hne := read_ne h' hon (hknown.mpr (Given.known_of_leavesSwitch h')) h
      exact iff_of_false hne.symm fun hiff => h (hiff.mpr h')
    · refine iff_of_true ?_ (iff_of_false h h')
      by_cases hsome : (g.lower? name).isSome
      · rw [Given.read_word hsome h, Given.read_word (hknown.mp hsome) h']
      · have hnone := Option.not_isSome_iff_eq_none.mp hsome
        have hnone' := Option.not_isSome_iff_eq_none.mp (mt hknown.mpr hsome)
        rw [hnone, hnone']
  · rw [hread, Given.read_switch (Given.leavesSwitch_of_default hname hfiles), hon]
    rfl

end Loading

/-- A project file with a value for `forof`, by its bytes, and a variable for it. -/
def forofSources (value : List UInt8) (word : Text) : Sources where
  files := .ofList [] [(projectFile, .file ([102, 111, 114, 111, 102, 61] ++ value))]
  home := "/"
  env := [("ESTREE_METRICS_FOROF", word)]

/-- Whether the file says `true` or `false`, the variable says `no`. -/
theorem variable_over_switches :
    ∃ g g' s s', given (forofSources [116, 114, 117, 101] "no") none [] = .ok g ∧
      given (forofSources [102, 97, 108, 115, 101] "no") none [] = .ok g' ∧
      (load (forofSources [116, 114, 117, 101] "no") none []).collect.1 = .ok s ∧
      (load (forofSources [102, 97, 108, 115, 101] "no") none []).collect.1 = .ok s' ∧
      g.lower? "forof" = some (.bool true) ∧ g'.lower? "forof" = some (.bool false) ∧
      s.get? "forof" = s'.get? "forof" ∧ s.get? "forof" = some (.switch false) := by
  have hg : given (forofSources [116, 114, 117, 101] "no") none [] = .ok _ := rfl
  have hg' : given (forofSources [102, 97, 108, 115, 101] "no") none [] = .ok _ := rfl
  have hvariable : (forofSources [116, 114, 117, 101] "no").env.lookup (variableOf "forof") =
    some "no" := rfl
  obtain ⟨hsame, -, hflag⟩ := environment_over_files hg hg' rfl (fun _ => Iff.rfl) rfl rfl
    hvariable List.not_mem_nil
  refine ⟨_, _, _, _, rfl, rfl, rfl, rfl, rfl, rfl, hsame.mpr ?_, hflag ?_ ?_ false rfl⟩
  · exact iff_of_true ⟨true, rfl⟩ ⟨false, rfl⟩
  · decide
  · rintro v hv
    cases hv
    exact ⟨true, rfl⟩

/-- The file says `false` or `"x"` of the same flag, and the variable says `true`: the flag
is on, or else the word `true`. -/
theorem variable_under_word :
    ∃ g g' s s', given (forofSources [102, 97, 108, 115, 101] "true") none [] = .ok g ∧
      given (forofSources [34, 120, 34] "true") none [] = .ok g' ∧
      g.lower? "forof" = some (.bool false) ∧ g'.lower? "forof" = some (.text "x") ∧
      (∀ name, name ∈ g'.fileNames ↔ name ∈ g.fileNames) ∧
      (load (forofSources [102, 97, 108, 115, 101] "true") none []).collect.1 = .ok s ∧
      (load (forofSources [34, 120, 34] "true") none []).collect.1 = .ok s' ∧
      ("forof" : Text) ∈ defaultTable.keys ∧ switch? "true" = some true ∧
      s.get? "forof" = some (.switch true) ∧ s'.get? "forof" = some (.word "true") :=
  ⟨_, _, _, _, rfl, rfl, rfl, rfl, fun _ => Iff.rfl, rfl, rfl, by decide, rfl, rfl, rfl⟩

end Settings

end Estree
