import Estree.Proofs.Dict
import Estree.Proofs.Log
import Estree.Settings.Sources

/-!
Where loaded settings come from.

The two files give values or end the loading, `given`.  What they and the flags give is
put in order once, `Given`: which names there are, what each comes to, and the first
thing that is wrong.  Main statement: `load_precedence`.
-/

namespace Estree

namespace Settings

/-! ### Values of files -/

/-- The document in a file, if it can be read. -/
def document? (files : Files) (place : Text) : Option (List (Text × Value)) :=
  match files.bytes place with
  | .ok (.ok bytes) => (Text.Utf8.decode bytes).toOption.bind fun s => (Toml.read s).toOption
  | _ => none

/-- The values of a document: its member `settings`, which has to be a table then, or
else all of it. -/
def valuesIn? (top : List (Text × Value)) : Option (List (Text × Value)) :=
  match top.lookup ("settings" : Text) with
  | none => some top
  | some (.object _ fields) => some fields
  | some _ => none

/-- The values of a file, and what stands for them when there is no file. -/
def valuesAt (files : Files) (place path : Text) (missing : Except Stop (List (Text × Value))) :
    Except Stop (List (Text × Value)) := do
  if ← (files.isThere place).mapError fun limit => .limit (limit.named path) then
    (tableOf files place path).mapError .failure
  else missing

def projectValues (src : Sources) : Except Stop (List (Text × Value)) :=
  valuesAt src.files projectFile (projectPath src) (.ok [])

def askedValues (src : Sources) : Option Text → Except Stop (List (Text × Value))
  | none => .ok []
  | some path => valuesAt src.files path path
      (.error (.failure (.configuration (.text ("Config file not found: " ++ path)) [])))

theorem document?_eq (files : Files) (place path : Text) :
    document? files place = (tableOf.fileTable files place path).toOption := by
  rw [document?, tableOf.fileTable]
  cases files.bytes place with
  | error limit => rfl
  | ok found =>
    cases found with
    | error reason => rfl
    | ok bytes =>
      show (Text.Utf8.decode bytes).toOption.bind _ =
        (((Text.Utf8.decode bytes).mapError Text.Utf8.Problem.message >>= fun s =>
          (Toml.read s).mapError fun problem => problem.message s) :
            Except String (List (Text × Value))).toOption
      cases Text.Utf8.decode bytes with
      | error problem => rfl
      | ok s =>
        show (Toml.read s).toOption =
          ((Toml.read s).mapError fun problem => problem.message s).toOption
        cases Toml.read s <;> rfl

theorem tableOf_eq_ok {files : Files} {place path : Text} {values : List (Text × Value)} :
    tableOf files place path = .ok values ↔
      ∃ top, document? files place = some top ∧ valuesIn? top = some values := by
  rw [document?_eq files place path]
  unfold tableOf
  cases tableOf.fileTable files place path with
  | error problem => simp [Except.toOption, throw, throwThe, MonadExceptOf.throw]
  | ok top =>
    simp only [Except.toOption, Option.some.injEq, exists_eq_left', valuesIn?]
    cases top.lookup ("settings" : Text) with
    | none => simp [pure, Except.pure]
    | some v => cases v <;> simp [pure, Except.pure, throw, throwThe, MonadExceptOf.throw]

theorem isConfiguration_of_tableOf {files : Files} {place path : Text} {f : Failure}
    (h : tableOf files place path = .error f) : f.isConfiguration = true := by
  unfold tableOf at h
  split at h
  · cases h
    rfl
  · split at h
    · cases h
    · cases h
    · cases h
      rfl

/-! ### All that is given -/

/-- What the files, the environment and the flags give. -/
structure Given where
  env : List (Text × Text)
  project : List (Text × Value)
  asked : List (Text × Value)
  overrides : List (Text × Value)

def given (src : Sources) (config : Option Text) (overrides : List (Text × Value)) :
    Except Stop Given := do
  let project ← projectValues src
  let asked ← askedValues src config
  return ⟨src.env, project, asked, overrides⟩

/-- The last value that a name has in a list. -/
def last? (values : List (Text × Value)) (name : Text) : Option Value :=
  values.reverse.lookup name

/-- What the environment gives a flag with such a value. -/
def environment? (env : List (Text × Text)) (name : Text) (current : Value) : Option Value :=
  (env.lookup (variableOf name)).bind fun text =>
    match current with
    | .bool _ => (switch? text).map .bool
    | _ => some (.text text)

/-- A variable that is no word for a switch, although the flag is one. -/
def misspelt? (env : List (Text × Text)) (name : Text) (current : Value) : Option Failure :=
  (env.lookup (variableOf name)).bind fun text =>
    match current, switch? text with
    | .bool _, none => some (.invalidFlag (.text (variableOf name)) (.text text)
        (.text "expected true/false"))
    | _, _ => none

/-- A value that no flag can have. -/
def unfit? (name : Text) (value : Value) : Option Failure :=
  match FlagValue.ofValue? value with
  | some _ => none
  | none => some (.invalidFlag (.text name) value
      (.text "flag values must be booleans or strings"))

namespace Given

/-- The names before the flags are asked, in order of their first appearance. -/
def lowerNames (g : Given) : List Text :=
  (defaultTable.keys ++ (g.project.map Prod.fst ++ g.asked.map Prod.fst)).eraseDups

/-- The value of a name before the environment is asked. -/
def lower? (g : Given) (name : Text) : Option Value :=
  (last? g.asked name).or ((last? g.project name).or (defaultTable.get? name))

def names (g : Given) : List Text :=
  (defaultTable.keys ++ (g.project.map Prod.fst ++ g.asked.map Prod.fst) ++
    g.overrides.map Prod.fst).eraseDups

/-- The value of a name in the end. -/
def final? (g : Given) (name : Text) : Option Value :=
  (last? g.overrides name).or
    ((g.lower? name).map fun current => (environment? g.env name current).getD current)

/-- What ends the loading after the files are read. -/
def stop? (g : Given) : Option Stop :=
  ((g.lowerNames.findSome? fun name => (g.lower? name).bind (misspelt? g.env name)).map
    Stop.failure).or
  ((g.names.findSome? fun name => (g.final? name).bind (unfit? name)).map Stop.ofFailure)

/-- The table that the environment and the flags are merged into. -/
def table (g : Given) : Dict Text Value := (defaultTable.putAll g.project).putAll g.asked

/-- What is given, as settings. -/
def settings (g : Given) : Except Stop Settings := do
  let table ← (mergeEnvironment g.env g.table).mapError .failure
  (ofTable (table.putAll g.overrides)).mapError .ofFailure

theorem keys_table (g : Given) : g.table.keys = g.lowerNames := by
  rw [table, ← Dict.putAll_append, Dict.keys_putAll, List.map_append, lowerNames]

theorem get?_table (g : Given) (name : Text) : g.table.get? name = g.lower? name := by
  rw [table, Dict.get?_putAll, Dict.get?_putAll]
  rfl

end Given

/-! ### Reading the sources -/

section Merging

variable {src : Sources} {files : Files} {place path : Text}

theorem ends_mergeFile (table : Dict Text Value) :
    ∃ lines, (mergeFile files place path table).Ends
      (((tableOf files place path).mapError .failure).map table.putAll) lines := by
  unfold mergeFile
  cases tableOf files place path with
  | error f => exact ⟨_, (Logged.ends_lift (Except.error (Stop.failure f))).bind_error⟩
  | ok values =>
    exact ⟨_, (Logged.ends_lift (Except.ok values)).bind
      ((Logged.ends_note _).bind (Logged.ends_pure _))⟩

theorem ends_mergeAt {missing : Except Stop (List (Text × Value))} {table : Dict Text Value}
    {x : Logged Stop (Dict Text Value)} (hx : x.Ends (missing.map table.putAll) []) :
    ∃ lines, (do
      if ← isThere files place path then mergeFile files place path table else x).Ends
        ((valuesAt files place path missing).map table.putAll) lines := by
  unfold isThere valuesAt
  cases files.isThere place with
  | error limit =>
    exact ⟨_, (Logged.ends_lift (Except.error (Stop.limit (limit.named path)))).bind_error⟩
  | ok there =>
    cases there with
    | true =>
      obtain ⟨lines, hfile⟩ : ∃ lines, (mergeFile files place path table).Ends _ lines :=
        ends_mergeFile table
      exact ⟨_, (Logged.ends_lift (Except.ok true)).bind hfile⟩
    | false => exact ⟨_, (Logged.ends_lift (Except.ok false)).bind hx⟩

theorem ends_mergeProject (src : Sources) (table : Dict Text Value) :
    ∃ lines, (mergeProject src table).Ends ((projectValues src).map table.putAll) lines :=
  ends_mergeAt (Logged.ends_pure table)

theorem ends_mergeAsked (src : Sources) (config : Option Text) (table : Dict Text Value) :
    ∃ lines, (mergeAsked src config table).Ends
      ((askedValues src config).map table.putAll) lines := by
  cases config with
  | none => exact ⟨_, Logged.ends_pure table⟩
  | some path => exact ends_mergeAt (Logged.ends_throw _)

end Merging

/-- Loading comes to what the rest makes of the values that the files give. -/
theorem settled_load (src : Sources) (config : Option Text) (overrides : List (Text × Value)) :
    (load src config overrides).Settled ∧
      (load src config overrides).collect.1 = given src config overrides >>= Given.settings := by
  obtain ⟨_, hproject⟩ := ends_mergeProject src defaultTable
  have hasked : ∀ table, (mergeAsked src config table).Settled ∧
      (mergeAsked src config table).collect.1 = (askedValues src config).map table.putAll := by
    intro table
    obtain ⟨_, h⟩ := ends_mergeAsked src config table
    exact ⟨h.settled, by rw [h.collect]⟩
  have hlast := fun table : Dict Text Value =>
    (Logged.settled_lift ((mergeEnvironment src.env table).mapError Stop.failure)).bind
      fun table => Logged.settled_lift ((ofTable (table.putAll overrides)).mapError Stop.ofFailure)
  have hrest := fun table => (hasked table).1.bind fun table => (hlast table).1
  have hall := hproject.settled.bind fun table => (hrest table).1
  refine ⟨hall.1, hall.2.trans ?_⟩
  simp only [hproject.collect, (hrest _).2, (hasked _).2, (hlast _).2, Logged.collect_lift]
  unfold given
  cases projectValues src with
  | error stop => rfl
  | ok project => cases askedValues src config <;> rfl

theorem collect_load (src : Sources) (config : Option Text) (overrides : List (Text × Value)) :
    (load src config overrides).collect.1 = given src config overrides >>= Given.settings :=
  (settled_load src config overrides).2

/-! ### The environment -/

theorem fromVariable_cases {env : List (Text × Text)} {name text : Text}
    (h : env.lookup (variableOf name) = some text) (current : Value) :
    (∃ f, misspelt? env name current = some f ∧
      fromVariable (variableOf name) text current = .error f) ∨
    ∃ v, misspelt? env name current = none ∧ environment? env name current = some v ∧
      fromVariable (variableOf name) text current = .ok v := by
  simp only [misspelt?, environment?, h, Option.bind_some]
  cases current with
  | bool b =>
    simp only [fromVariable]
    cases switch? text with
    | none => exact .inl ⟨_, rfl, rfl⟩
    | some on => exact .inr ⟨_, rfl, rfl, rfl⟩
  | _ => exact .inr ⟨_, rfl, rfl, rfl⟩

/-- The environment sets what it can, unless a variable is no word for a switch. -/
theorem fromEnvironment_eq (env : List (Text × Text)) (entries : List (Text × Value)) :
    fromEnvironment env entries =
      match entries.findSome? fun e => misspelt? env e.1 e.2 with
      | some f => .error f
      | none => .ok (entries.filterMap fun e => (environment? env e.1 e.2).map (Prod.mk e.1)) := by
  induction entries with
  | nil => rfl
  | cons e entries ih =>
    obtain ⟨name, current⟩ := e
    rw [fromEnvironment, List.findSome?_cons, List.filterMap_cons, ih]
    cases h : env.lookup (variableOf name) with
    | none =>
      have hmisspelt : misspelt? env name current = none := by rw [misspelt?, h]; rfl
      have hnothing : environment? env name current = none := by rw [environment?, h]; rfl
      rw [hmisspelt, hnothing]
      rfl
    | some text =>
      rcases fromVariable_cases h current with ⟨f, hmisspelt, hf⟩ | ⟨v, hmisspelt, hv, hok⟩
      · rw [hmisspelt]
        show (fromVariable (variableOf name) text current >>= _) = _
        rw [hf]
        rfl
      · rw [hmisspelt, hv]
        show (fromVariable (variableOf name) text current >>= _) = _
        rw [hok]
        cases entries.findSome? fun e => misspelt? env e.1 e.2 <;> rfl

/-- The environment changes values of names that are there, and adds none. -/
theorem mergeEnvironment_eq (env : List (Text × Text)) (table : Dict Text Value) :
    match table.keys.findSome? fun name => (table.get? name).bind (misspelt? env name) with
    | some f => mergeEnvironment env table = .error f
    | none => ∃ merged, mergeEnvironment env table = .ok merged ∧ merged.keys = table.keys ∧
        ∀ name, merged.get? name = (table.get? name).map fun current =>
          (environment? env name current).getD current := by
  have hfrom := fromEnvironment_eq env table.entries
  rw [Dict.findSome?_entries] at hfrom
  unfold mergeEnvironment
  cases hbad : table.keys.findSome? fun name => (table.get? name).bind (misspelt? env name) with
  | some f =>
    rw [hbad] at hfrom
    show (fromEnvironment env table.entries >>= _) = _
    rw [hfrom]
    rfl
  | none =>
    rw [hbad] at hfrom
    rw [hfrom]
    have hsublist := Entries.keys_filterMap_sublist (environment? env) table.entries
    refine ⟨_, rfl, Dict.keys_putAll_of_subset hsublist.subset, fun name => ?_⟩
    rw [Dict.get?_putAll, Entries.lookup_reverse (hsublist.nodup table.nodup),
      Entries.lookup_filterMap table.nodup, ← Dict.get?]
    cases table.get? name with
    | none => rfl
    | some current => cases h : environment? env name current <;> simp [h]

/-! ### Settings of a table -/

theorem flagOf_eq (name : Text) (value : Value) :
    match unfit? name value with
    | some f => flagOf (.text name) value = .error f
    | none => ∃ flag, flagOf (.text name) value = .ok (name, flag) ∧ flag.toValue = value := by
  cases value with
  | bool b => exact ⟨.switch b, rfl, rfl⟩
  | text s => exact ⟨.word s, rfl, rfl⟩
  | _ => rfl

/-- A table is as good as its flags, unless one of its values is no flag. -/
theorem flagsOf_eq (entries : List (Text × Value)) :
    match entries.findSome? fun e => unfit? e.1 e.2 with
    | some f => flagsOf (entries.map fun e => (.text e.1, e.2)) = .error f
    | none => ∃ flags, flagsOf (entries.map fun e => (.text e.1, e.2)) = .ok flags ∧
        flags.map (fun flag => (flag.1, flag.2.toValue)) = entries := by
  induction entries with
  | nil => exact ⟨[], rfl, rfl⟩
  | cons e entries ih =>
    obtain ⟨name, value⟩ := e
    have hflag := flagOf_eq name value
    rw [List.findSome?_cons, List.map_cons, flagsOf]
    cases hunfit : unfit? name value with
    | some f =>
      rw [hunfit] at hflag
      rw [hflag]
      rfl
    | none =>
      rw [hunfit] at hflag
      obtain ⟨flag, hok, hvalue⟩ := hflag
      rw [hok]
      cases hrest : entries.findSome? fun e => unfit? e.1 e.2 with
      | some f =>
        rw [hrest] at ih
        rw [ih]
        rfl
      | none =>
        rw [hrest] at ih
        obtain ⟨flags, hflags, hentries⟩ := ih
        rw [hflags]
        refine ⟨_, rfl, ?_⟩
        rw [List.map_cons, hentries, hvalue]

theorem ofTable_eq (table : Dict Text Value) :
    match table.keys.findSome? fun name => (table.get? name).bind (unfit? name) with
    | some f => ofTable table = .error f
    | none => ∃ s, ofTable table = .ok s ∧ s.flags.keys = table.keys ∧
        ∀ name, (s.get? name).map FlagValue.toValue = table.get? name := by
  have hflags := flagsOf_eq table.entries
  rw [Dict.findSome?_entries] at hflags
  unfold ofTable
  cases hbad : table.keys.findSome? fun name => (table.get? name).bind (unfit? name) with
  | some f =>
    rw [hbad] at hflags
    show (flagsOf (table.entries.map _) >>= _) = _
    rw [hflags]
    rfl
  | none =>
    rw [hbad] at hflags
    obtain ⟨flags, hok, hentries⟩ := hflags
    have hkeys : flags.map Prod.fst = table.keys := by
      rw [Dict.keys, ← hentries, List.map_map]
      rfl
    have hnodup : (flags.map Prod.fst).Nodup := hkeys ▸ table.nodup
    show ∃ s, (flagsOf (table.entries.map _) >>= _) = _ ∧ _
    rw [hok]
    refine ⟨_, rfl, ?_, fun name => ?_⟩
    · rw [Dict.keys, Dict.entries_ofList hnodup, hkeys]
    · have hlookup := Entries.lookup_map (f := id) (fun _ _ h => h)
        (fun _ (flag : FlagValue) => flag.toValue) name flags
      rw [Settings.get?, Dict.get?, Dict.get?, Dict.entries_ofList hnodup, ← hentries]
      exact hlookup.symm

/-! ### Precedence -/

namespace Given

theorem settings_eq (g : Given) :
    match g.stop? with
    | some stop => g.settings = .error stop
    | none => ∃ s, g.settings = .ok s ∧ s.flags.keys = g.names ∧
        ∀ name, (s.get? name).map FlagValue.toValue = g.final? name := by
  have hmerge := mergeEnvironment_eq g.env g.table
  simp only [keys_table, get?_table] at hmerge
  unfold stop? settings
  cases hmisspelt : g.lowerNames.findSome? fun name => (g.lower? name).bind (misspelt? g.env name)
  with
  | some f =>
    rw [hmisspelt] at hmerge
    rw [hmerge]
    rfl
  | none =>
    rw [hmisspelt] at hmerge
    obtain ⟨merged, hok, hkeys, hvalues⟩ := hmerge
    have hnames : (merged.putAll g.overrides).keys = g.names := by
      rw [Dict.keys_putAll, hkeys, lowerNames, Entries.eraseDups_eraseDups_append, names]
    have hfinal : ∀ name, (merged.putAll g.overrides).get? name = g.final? name := by
      intro name
      rw [Dict.get?_putAll, hvalues]
      rfl
    have htable := ofTable_eq (merged.putAll g.overrides)
    simp only [hnames, hfinal] at htable
    rw [hok]
    show match Option.or none _ with
      | some stop => ((ofTable (merged.putAll g.overrides)).mapError Stop.ofFailure) = .error stop
      | none => ∃ s, ((ofTable (merged.putAll g.overrides)).mapError Stop.ofFailure) = .ok s ∧ _
    rw [Option.none_or]
    cases hunfit : g.names.findSome? fun name => (g.final? name).bind (unfit? name) with
    | some f =>
      rw [hunfit] at htable
      rw [htable]
      rfl
    | none =>
      rw [hunfit] at htable
      obtain ⟨s, hs, h⟩ := htable
      rw [hs]
      exact ⟨s, rfl, h⟩

end Given

/-- Settings are loaded unless a file ends the loading, the project file first, or what is
given does.  They have the names of all sources, and a name has the value of the last
source that gives it one: its flag, its variable if it is known without, a file. -/
theorem load_precedence (src : Sources) (config : Option Text)
    (overrides : List (Text × Value)) :
    (∀ stop, given src config overrides = .error stop →
      (load src config overrides).collect.1 = .error stop) ∧
    (∀ g, given src config overrides = .ok g → ∀ stop, g.stop? = some stop →
      (load src config overrides).collect.1 = .error stop) ∧
    (∀ g, given src config overrides = .ok g → g.stop? = none →
      ∃ s, (load src config overrides).collect.1 = .ok s ∧ s.flags.keys = g.names ∧
        ∀ name, (s.get? name).map FlagValue.toValue = g.final? name) ∧
    (∀ place path values, tableOf src.files place path = .ok values ↔
      ∃ top, document? src.files place = some top ∧ valuesIn? top = some values) ∧
    ∀ place path f, tableOf src.files place path = .error f → f.isConfiguration = true := by
  refine ⟨fun stop hstop => ?_, fun g hg stop hstop => ?_, fun g hg hnone => ?_,
    fun _ _ _ => tableOf_eq_ok, fun _ _ _ => isConfiguration_of_tableOf⟩
  · rw [collect_load, hstop]
    rfl
  · have hsettings := g.settings_eq
    rw [hstop] at hsettings
    rw [collect_load, hg]
    exact hsettings
  · have hsettings := g.settings_eq
    rw [hnone] at hsettings
    rw [collect_load, hg]
    exact hsettings

end Settings

end Estree
