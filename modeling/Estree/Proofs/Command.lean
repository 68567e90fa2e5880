import Estree.Proofs.Command.Console
import Estree.Proofs.Document
import Estree.Proofs.Settings.Algebra
import Estree.Proofs.Settings.Limits
import Estree.Proofs.Trace.Faults
import Estree.Proofs.Trace.Given

/-!
How the commands on a tree file end.

A command finishes, reports what is wrong, or is ended by something that escapes it.  The
two commands are alike, `onTree`: settings, a tree, work on the tree, and what is shown of
it.  Failures are reported; a clash of names, a fault and a limit escape, and so does the
refusal of the console to take what there is to say.  Main statement: `commands_end`.
-/

namespace Estree

namespace Command

open Walk (Reached node?)
open Grammar (FailingRequire)

namespace Outcome

/-- The command is done and has put something out. -/
def Finishes (o : Outcome) : Prop :=
  o.exit = 0 ∧ o.escaped = none ∧ (o.shown ≠ [] ∨ o.written ≠ "")

/-- The command ends with one line that tells what is wrong. -/
def Reports (o : Outcome) (f : Failure) : Prop :=
  o.exit = 1 ∧ o.escaped = none ∧ o.shown = [.line ("[red]Error:[/red] " ++ f.text)] ∧
    o.written = ""

/-- The command is ended without a word. -/
def Escapes (o : Outcome) (stop : Stop) : Prop :=
  o.exit = 1 ∧ o.escaped = some (.stop stop) ∧ o.shown = [] ∧ o.written = ""

/-- The command neither finishes nor reports a failure. -/
def Unanswered (o : Outcome) : Prop := ¬o.Finishes ∧ ∀ f, ¬o.Reports f

theorem unanswered_of_escaped {o : Outcome} (h : o.escaped.isSome = true) : o.Unanswered := by
  constructor
  · rintro ⟨-, hnone, -⟩
    rw [hnone] at h
    cases h
  · rintro f ⟨-, hnone, -⟩
    rw [hnone] at h
    cases h

variable {x : Logged Stop (List Shown × String)} {stop : Stop}

theorem ofRun_of_ok (verbose : Bool) {out : List Shown × String} (h : x.collect.1 = .ok out) :
    ∃ notes, ofRun verbose x = ⟨0, out.1, out.2, notes, none⟩ := by
  unfold ofRun
  cases hx : Logged.collect x with
  | mk result notes =>
    rw [hx] at h
    cases h
    exact ⟨_, rfl⟩

theorem exit_ofRun_of_error (verbose : Bool) (h : x.collect.1 = .error stop) :
    (ofRun verbose x).exit = 1 := by
  unfold ofRun
  cases hx : Logged.collect x with
  | mk result notes =>
    rw [hx] at h
    cases h
    cases stop <;> rfl

theorem finishes_ofRun (verbose : Bool) {out : List Shown × String} (h : x.collect.1 = .ok out)
    (hout : out.1 ≠ [] ∨ out.2 ≠ "") : (ofRun verbose x).Finishes := by
  obtain ⟨notes, hrun⟩ := ofRun_of_ok verbose h
  rw [hrun]
  exact ⟨rfl, rfl, hout⟩

theorem reports_ofRun (verbose : Bool) {f : Failure} (h : x.collect.1 = .error (.failure f)) :
    (ofRun verbose x).Reports f := by
  unfold ofRun
  cases hx : Logged.collect x with
  | mk result notes =>
    rw [hx] at h
    cases h
    exact ⟨rfl, rfl, rfl, rfl⟩

/-- What ends a run escapes, unless it is a failure. -/
theorem escapes_ofRun_iff (verbose : Bool) :
    (ofRun verbose x).Escapes stop ↔ x.collect.1 = .error stop ∧ ∀ f, stop ≠ .failure f := by
  unfold ofRun
  cases hx : Logged.collect x with
  | mk result notes =>
    cases result with
    | ok out => simp [Escapes]
    | error stop' =>
      cases stop' <;> simp [Escapes] <;> rintro rfl <;> simp

/-- A run that puts something out if it comes to an end finishes, is reported as a failure,
or is ended by what escapes. -/
theorem ofRun_cases (verbose : Bool)
    (hout : ∀ out, x.collect.1 = .ok out → out.1 ≠ [] ∨ out.2 ≠ "") :
    (ofRun verbose x).Finishes ∨ (∃ f, (ofRun verbose x).Reports f) ∨
      ∃ stop, (ofRun verbose x).Escapes stop := by
  cases hend : x.collect.1 with
  | ok out => exact .inl (finishes_ofRun verbose hend (hout out hend))
  | error stop =>
    by_cases hfailure : ∃ f, stop = .failure f
    · obtain ⟨f, rfl⟩ := hfailure
      exact .inr (.inl ⟨f, reports_ofRun verbose hend⟩)
    · exact .inr (.inr ⟨stop, (escapes_ofRun_iff verbose).mpr
        ⟨hend, fun f hf => hfailure ⟨f, hf⟩⟩⟩)

theorem escaped_ofRun_ne_refusal (verbose : Bool) (r : Refusal) :
    (ofRun verbose x).escaped ≠ some (.refusal r) := by
  unfold ofRun
  cases hx : Logged.collect x with
  | mk result notes =>
    cases result with
    | ok out => simp
    | error stop => cases stop <;> simp

/-- A command that escapes has nothing to say, so it escapes on every console. -/
theorem escapes_on_iff {console : Console} {o : Outcome} :
    (o.on console).Escapes stop ↔ o.Escapes stop := by
  rcases on_cases console o with ⟨taken, r, hrefuses, hon⟩ | ⟨-, hon⟩
  · rw [hon]
    constructor
    · rintro ⟨-, hstop, -⟩
      cases hstop
    · rintro ⟨-, -, hshown, hwritten⟩
      rw [hshown, hwritten] at hrefuses
      cases hrefuses with
      | item split takes refused => simp at split
      | text takes nonempty refused => exact absurd rfl nonempty
  · rw [hon]

end Outcome

/-! ### Settings of a command -/

/-- All options are flags, and one of them has the name of the argument for the settings
file. -/
def NamesOwn (options : List Text) : Prop :=
  ∃ flags, Settings.parseOptions options = .ok flags ∧
    (Settings.Call.option.ownName : Text) ∈ flags.map Prod.fst

/-- The settings of a command, or what ends it before it has any. -/
def settingsAt (src : Sources) (config : Option Text) (options : List Text) :
    Except Stop Settings :=
  ((Settings.parseOptions options).mapError .failure).bind fun flags =>
    if (Settings.Call.option.ownName : Text) ∈ flags.map Prod.fst then
      .error (.clash (.taken .option))
    else (Settings.load src config flags).collect.1

section Settings

variable {src : Sources} {config : Option Text} {options : List Text} {stop : Stop}

theorem settled_settings (src : Sources) (config : Option Text) (options : List Text) :
    (settings src config options).Settled ∧
      (settings src config options).collect.1 = settingsAt src config options := by
  have harguments := fun flags : List (Text × Value) =>
    (Logged.settled_lift (((Settings.Call.option.arguments
      (flags.map fun e => (.text e.1, e.2))).mapError Stop.clash))).bind
      fun overrides => (Settings.settled_load src config overrides).1
  have hall := (Logged.settled_lift ((Settings.parseOptions options).mapError Stop.failure)).bind
    fun flags => (harguments flags).1
  refine ⟨hall.1, hall.2.trans ?_⟩
  rw [settingsAt, Logged.collect_lift]
  congr 1
  funext flags
  rw [(harguments flags).2, Logged.collect_lift, Settings.Call.arguments_texts]
  split <;> rfl

theorem settingsAt_of_namesOwn (h : NamesOwn options) :
    settingsAt src config options = .error (.clash (.taken .option)) := by
  obtain ⟨flags, hflags, hname⟩ := h
  rw [settingsAt, hflags]
  exact if_pos hname

theorem settingsAt_eq_error (h : settingsAt src config options = .error stop) :
    (∃ f, stop = .failure f) ∨ (stop = .clash (.taken .option) ∧ NamesOwn options) ∨
      ∃ flags l, Settings.parseOptions options = .ok flags ∧ stop = .limit l ∧
        Settings.Meets src config flags l := by
  rcases Logged.bind_eq_error.mp h with hparse | ⟨flags, hparse, hrest⟩
  · obtain ⟨f, -, rfl⟩ := Logged.mapError_eq_error.mp hparse
    exact .inl ⟨f, rfl⟩
  · have hflags := Logged.mapError_eq_ok.mp hparse
    split at hrest
    · rename_i hname
      cases hrest
      exact .inr (.inl ⟨rfl, flags, hflags, hname⟩)
    · rcases Settings.load_eq_error hrest with hfailure | ⟨l, rfl, hl⟩
      · exact .inl hfailure
      · exact .inr (.inr ⟨flags, l, hflags, rfl, hl⟩)

theorem settingsAt_ne_fault (fault : Fault) :
    settingsAt src config options ≠ .error (.fault fault) := by
  intro h
  rcases settingsAt_eq_error h with ⟨_, hf⟩ | ⟨hclash, -⟩ | ⟨_, _, -, hl, -⟩
  · cases hf
  · cases hclash
  · cases hl

theorem settingsAt_eq_clash_iff {c : Settings.Clash} :
    settingsAt src config options = .error (.clash c) ↔ c = .taken .option ∧ NamesOwn options := by
  constructor
  · intro h
    rcases settingsAt_eq_error h with ⟨_, hf⟩ | ⟨hclash, hown⟩ | ⟨_, _, -, hl, -⟩
    · cases hf
    · exact ⟨Stop.clash.inj hclash, hown⟩
    · cases hl
  · rintro ⟨rfl, hown⟩
    exact settingsAt_of_namesOwn hown

theorem settingsAt_eq_limit {l : Limit} (h : settingsAt src config options = .error (.limit l)) :
    ∃ flags, Settings.parseOptions options = .ok flags ∧ Settings.Meets src config flags l := by
  rcases settingsAt_eq_error h with ⟨_, hf⟩ | ⟨hclash, -⟩ | ⟨flags, _, hflags, hl, hmeets⟩
  · cases hf
  · cases hclash
  · cases hl
    exact ⟨flags, hflags, hmeets⟩

end Settings

/-! ### Commands on a tree -/

/-- A command that works on the tree of a file and shows what it finds. -/
def onTree {α : Type} (src : Sources) (path : Text) (config : Option Text) (options : List Text)
    (work : Settings → Value → Except Fault α)
    (shown : α → Logged Stop (List Shown × String)) : Logged Stop (List Shown × String) := do
  let s ← settings src config options
  let tree ← Document.load src.files path
  let found ← Logged.lift ((work s tree).mapError .fault)
  shown found

/-- How a command on a tree file ends that hands what it has to say to a console. -/
structure Ending (console : Console) (src : Sources) (path : Text) (config : Option Text)
    (options : List Text) (said : Outcome) : Prop where
  /-- It finishes, reports a failure, or something escapes it: what has ended the work, or a
  refusal of the console. -/
  cases : (said.on console).Finishes ∨ (∃ f, (said.on console).Reports f) ∨
    (∃ stop, (said.on console).Escapes stop) ∨ ∃ taken r, (said.on console).Refused taken r
  /-- No failure escapes. -/
  failure : ∀ f, ¬(said.on console).Escapes (.failure f)
  /-- A clash escapes if a flag has the name of the argument for the settings file. -/
  clash : ∀ c, (said.on console).Escapes (.clash c) ↔ c = .taken .option ∧ NamesOwn options
  /-- A fault escapes if there are settings and a tree, and a call that fails is reached. -/
  fault : (∃ fault, (said.on console).Escapes (.fault fault)) ↔
    ∃ s tree place node, (settings src config options).collect.1 = .ok s ∧
      (Document.load src.files path).collect.1 = .ok tree ∧ Reached .standard tree place ∧
      node? .standard tree place = some node ∧ FailingRequire node
  /-- A limit escapes if it ends the loading of the settings, or that of the tree then. -/
  limit : ∀ l, (said.on console).Escapes (.limit l) ↔
    (settings src config options).collect.1 = .error (.limit l) ∨
      ∃ s, (settings src config options).collect.1 = .ok s ∧
        (Document.load src.files path).collect.1 = .error (.limit l)
  /-- A limit is one that settings meet, a number that is too long, or a path that is none. -/
  reach : ∀ l, (said.on console).Escapes (.limit l) →
    (∃ flags, Settings.parseOptions options = .ok flags ∧ Settings.Meets src config flags l) ∨
      (∃ digits, l = .longNumber digits) ∨ src.files path = .noPath l
  /-- A refusal escapes if the console takes some of what the command has to say, and refuses
  what comes next. -/
  refusal : ∀ taken r,
    (said.on console).Refused taken r ↔ console.Refuses said.shown said.written taken r
  /-- Without a refusal everything that the command has to say is put out. -/
  whole : (∀ taken r, ¬console.Refuses said.shown said.written taken r) →
    said.on console = said

section OnTree

variable {α : Type} {src : Sources} {path : Text} {config : Option Text} {options : List Text}
  {work : Settings → Value → Except Fault α} {shown : α → Logged Stop (List Shown × String)}

/-- What a command shows comes to an end and is not empty. -/
def Shows (x : Logged Stop (List Shown × String)) : Prop :=
  ∃ out lines, x.Ends (.ok out) lines ∧ (out.1 ≠ [] ∨ out.2 ≠ "")

theorem collect_onTree (hshown : ∀ a, Shows (shown a)) :
    (onTree src path config options work shown).collect.1 =
      (settingsAt src config options).bind fun s =>
        (Document.treeAt src.files path).bind fun tree =>
          ((work s tree).mapError .fault).bind fun a => (shown a).collect.1 := by
  have hsettled : ∀ a, (shown a).Settled := by
    intro a
    obtain ⟨_, _, hends, -⟩ := hshown a
    exact hends.settled
  have hwork := fun s tree =>
    (Logged.settled_lift ((work s tree).mapError Stop.fault)).bind hsettled
  have htree := fun s => (Document.settled_load src.files path).1.bind fun tree => (hwork s tree).1
  have hall := (settled_settings src config options).1.bind fun s => (htree s).1
  refine hall.2.trans ?_
  simp only [(settled_settings src config options).2, (htree _).2,
    (Document.settled_load src.files path).2, (hwork _ _).2, Logged.collect_lift]

/-- A command is ended at the first step that does not succeed. -/
theorem onTree_eq_error_iff (hshown : ∀ a, Shows (shown a)) {stop : Stop} :
    (onTree src path config options work shown).collect.1 = .error stop ↔
      settingsAt src config options = .error stop ∨
        ∃ s, settingsAt src config options = .ok s ∧
          (Document.treeAt src.files path = .error stop ∨
            ∃ tree, Document.treeAt src.files path = .ok tree ∧
              ∃ fault, work s tree = .error fault ∧ stop = .fault fault) := by
  have hnone : ∀ a, (shown a).collect.1 ≠ .error stop := by
    intro a h
    obtain ⟨_, _, hends, -⟩ := hshown a
    rw [hends.collect] at h
    cases h
  rw [collect_onTree hshown]
  simp only [Logged.bind_eq_error, Logged.mapError_eq_error, hnone, and_false, exists_false,
    or_false, eq_comm (a := stop)]

theorem onTree_eq_ok (hshown : ∀ a, Shows (shown a)) {out : List Shown × String}
    (h : (onTree src path config options work shown).collect.1 = .ok out) :
    out.1 ≠ [] ∨ out.2 ≠ "" := by
  rw [collect_onTree hshown] at h
  obtain ⟨s, -, h⟩ := Logged.bind_eq_ok.mp h
  obtain ⟨tree, -, h⟩ := Logged.bind_eq_ok.mp h
  obtain ⟨a, -, h⟩ := Logged.bind_eq_ok.mp h
  obtain ⟨out', _, hends, hout⟩ := hshown a
  rw [hends.collect] at h
  cases h
  exact hout

/-- Work that succeeds if no call that fails is reached fails if one is. -/
theorem fails_iff_reached {s : Settings} {tree : Value}
    (hwork : (∃ a, work s tree = .ok a) ↔
      ∀ place node, Reached .standard tree place → node? .standard tree place = some node →
        ¬FailingRequire node) :
    (∃ fault, work s tree = .error fault) ↔
      ∃ place node, Reached .standard tree place ∧ node? .standard tree place = some node ∧
        FailingRequire node := by
  cases hend : work s tree with
  | ok a =>
    have hall := hwork.mp ⟨a, hend⟩
    constructor
    · rintro ⟨_, hfault⟩
      cases hfault
    · rintro ⟨place, node, hr, hn, hfail⟩
      exact absurd hfail (hall place node hr hn)
  | error fault =>
    refine ⟨fun _ => ?_, fun _ => ⟨fault, rfl⟩⟩
    by_contra hnone
    push Not at hnone
    obtain ⟨a, ha⟩ := hwork.mpr hnone
    cases hend.symm.trans ha

section Escapes

variable {verbose : Bool} (hshown : ∀ a, Shows (shown a))

include hshown

theorem escapes_onTree_iff {stop : Stop} :
    (Outcome.ofRun verbose (onTree src path config options work shown)).Escapes stop ↔
      (settingsAt src config options = .error stop ∨
        ∃ s, settingsAt src config options = .ok s ∧
          (Document.treeAt src.files path = .error stop ∨
            ∃ tree, Document.treeAt src.files path = .ok tree ∧
              ∃ fault, work s tree = .error fault ∧ stop = .fault fault)) ∧
      ∀ f, stop ≠ .failure f := by
  rw [Outcome.escapes_ofRun_iff, onTree_eq_error_iff hshown]

theorem clash_escapes_iff {c : Settings.Clash} :
    (Outcome.ofRun verbose (onTree src path config options work shown)).Escapes (.clash c) ↔
      c = .taken .option ∧ NamesOwn options := by
  simp [escapes_onTree_iff hshown, settingsAt_eq_clash_iff, Document.treeAt_ne_clash]

theorem fault_escapes_iff {fault : Fault} :
    (Outcome.ofRun verbose (onTree src path config options work shown)).Escapes (.fault fault) ↔
      ∃ s tree, settingsAt src config options = .ok s ∧
        Document.treeAt src.files path = .ok tree ∧ work s tree = .error fault := by
  simp [escapes_onTree_iff hshown, settingsAt_ne_fault, Document.treeAt_ne_fault]

theorem limit_escapes_iff {l : Limit} :
    (Outcome.ofRun verbose (onTree src path config options work shown)).Escapes (.limit l) ↔
      settingsAt src config options = .error (.limit l) ∨
        ∃ s, settingsAt src config options = .ok s ∧
          Document.treeAt src.files path = .error (.limit l) := by
  simp [escapes_onTree_iff hshown]

/-- The end of a command whose work fails exactly at calls that fail. -/
theorem ending_onTree (console : Console)
    (hwork : ∀ s tree, (∃ a, work s tree = .ok a) ↔
      ∀ place node, Reached .standard tree place → node? .standard tree place = some node →
        ¬FailingRequire node) :
    Ending console src path config options
      (.ofRun verbose (onTree src path config options work shown)) := by
  have hsettings := (settled_settings src config options).2
  have htree := (Document.settled_load src.files path).2
  have hon := Outcome.on_cases console
    (.ofRun verbose (onTree src path config options work shown))
  refine ⟨?_, fun f h => ?_, fun c => ?_, ?_, fun l => ?_, fun l h => ?_,
    fun taken r => Outcome.refused_on_iff (Outcome.escaped_ofRun_ne_refusal verbose),
    fun hnone => ?_⟩
  · rcases hon with ⟨taken, r, -, hon⟩ | ⟨-, hon⟩
    · rw [hon]
      exact .inr (.inr (.inr ⟨taken, r, rfl, rfl, rfl, rfl⟩))
    · rw [hon]
      exact (Outcome.ofRun_cases verbose fun _ => onTree_eq_ok hshown).imp_right
        fun h => h.imp_right .inl
  · rw [Outcome.escapes_on_iff] at h
    exact ((Outcome.escapes_ofRun_iff verbose).mp h).2 f rfl
  · rw [Outcome.escapes_on_iff]
    exact clash_escapes_iff hshown
  · simp only [Outcome.escapes_on_iff, fault_escapes_iff hshown, hsettings, htree]
    constructor
    · rintro ⟨fault, s, tree, hs, ht, hfault⟩
      obtain ⟨place, node, hreached⟩ := (fails_iff_reached (hwork s tree)).mp ⟨fault, hfault⟩
      exact ⟨s, tree, place, node, hs, ht, hreached⟩
    · rintro ⟨s, tree, place, node, hs, ht, hreached⟩
      obtain ⟨fault, hfault⟩ := (fails_iff_reached (hwork s tree)).mpr ⟨place, node, hreached⟩
      exact ⟨fault, s, tree, hs, ht, hfault⟩
  · rw [Outcome.escapes_on_iff, hsettings, htree]
    exact limit_escapes_iff hshown
  · rw [Outcome.escapes_on_iff] at h
    rcases (limit_escapes_iff hshown).mp h with hlimit | ⟨_, -, hlimit⟩
    · exact .inl (settingsAt_eq_limit hlimit)
    · exact .inr (Document.treeAt_eq_limit hlimit)
  · rcases hon with ⟨taken, r, hrefuses, -⟩ | ⟨-, hon⟩
    · exact absurd hrefuses (hnone taken r)
    · exact hon

end Escapes

end OnTree

/-! ### The commands -/

/-- What is put out for a trace. -/
def showTrace (path format : Text) (lines : List Trace.Line) :
    Logged Stop (List Shown × String) := do
  Logged.note (toString lines.length ++ " events for " ++ path)
  if format = "json" then return ([], Output.traceData lines)
  else return ([.table (Output.traceTable path lines)], "")

/-- What is put out for dependencies. -/
def showRecords (records : List Value) : Logged Stop (List Shown × String) :=
  if records.isEmpty then return ([.line "[dim]No dependencies found[/dim]"], "")
  else return (records.map fun record => .line (Output.dependencyLine record), "")

theorem trace_eq (src : Sources) (path : Text) (config : Option Text) (options : List Text)
    (format : Text) :
    trace src path config options format = onTree src path config options
      (fun s tree => Trace.ofTree .standard s.toFlags tree) (showTrace path format) := by
  simp only [trace, Trace.under_eq, Grammar.chosen_none]
  rfl

theorem dependencies_eq (src : Sources) (path : Text) :
    dependencies src path = onTree src path none []
      (fun _ tree => Dependencies.ofTree .standard tree) showRecords := by
  simp only [dependencies, Dependencies.under_eq, Grammar.chosen_none]
  rfl

theorem shows_showTrace (path format : Text) (lines : List Trace.Line) :
    Shows (showTrace path format lines) := by
  unfold showTrace
  split
  · refine ⟨_, _, (Logged.ends_note _).bind (Logged.ends_pure _), .inr ?_⟩
    simp [Output.traceData]
  · exact ⟨_, _, (Logged.ends_note _).bind (Logged.ends_pure _), .inl (List.cons_ne_nil _ _)⟩

theorem shows_showRecords (records : List Value) : Shows (showRecords records) := by
  cases records with
  | nil => exact ⟨_, _, Logged.ends_pure _, .inl (List.cons_ne_nil _ _)⟩
  | cons record records => exact ⟨_, _, Logged.ends_pure _, .inl (List.cons_ne_nil _ _)⟩

/-- Whatever the files, the environment, the options, the tree and the console are, either
command finishes with something put out, or reports one failure, or something escapes it: a
clash if a flag has the name of the argument for the settings file, a fault if a call of
`require` is reached that has no first argument, a limit, or the refusal of the console to
take what the command has to say.  Nothing else does. -/
theorem commands_end (console : Console) (src : Sources) (path : Text) (config : Option Text)
    (options : List Text) (format : Text) (verbose : Bool) :
    Ending console src path config options
        (.ofRun verbose (trace src path config options format)) ∧
      Ending console src path none [] (.ofRun verbose (dependencies src path)) := by
  rw [trace_eq, dependencies_eq]
  constructor
  · exact ending_onTree (shows_showTrace path format) console
      fun _ _ => Trace.exists_ofTree_standard_iff
  · exact ending_onTree shows_showRecords console
      fun _ _ => Dependencies.exists_ofTree_standard_iff

/-- A directory with one file in it. -/
def onlyFile (name : Text) (source : String) : Sources :=
  ⟨Files.ofList [] [(name, .file source.toUTF8.toList)], "/", []⟩

/-- Neither a flag with the name of an argument nor a call of `require` with a number for its
arguments is answered. -/
theorem clash_and_fault_unanswered :
    ((Outcome.ofRun false (trace (onlyFile "t.json" "\x7b\"type\": \"Program\", \"body\": []\x7d")
      "t.json" none ["config_file=x"] "json")).on .keeping).Unanswered ∧
    ((Outcome.ofRun false (dependencies (onlyFile "t.json" ("\x7b\"type\": \"Program\", " ++
      "\"body\": [\x7b\"type\": \"ExpressionStatement\", \"expression\": " ++
      "\x7b\"type\": \"CallExpression\", " ++
      "\"callee\": \x7b\"type\": \"Identifier\", \"name\": \"require\"\x7d, " ++
      "\"arguments\": 5\x7d\x7d]\x7d")) "t.json")).on .keeping).Unanswered := by
  rw [Outcome.on_keeping, Outcome.on_keeping]
  exact ⟨Outcome.unanswered_of_escaped rfl, Outcome.unanswered_of_escaped (by decide +kernel)⟩

end Command

end Estree
