import Estree.Command.Arguments
import Estree.Command.Console
import Estree.Document
import Estree.Grammar.Standard
import Estree.Settings.Sources

/-!
The commands: the trace of a document, its dependencies, the rule of a node type.
-/

namespace Estree

namespace Command

/-- What ends a command without a word to the user. -/
inductive Escape where
  | stop (s : Stop)
  /-- The console does not take what the command has to say. -/
  | refusal (r : Refusal)

def Escape.message : Escape → Text
  | .stop s => s.message
  | .refusal r => r.message

/-- Everything that a command leaves behind. -/
structure Outcome where
  exit : Nat
  shown : List Shown
  /-- Text written without decoration. -/
  written : String
  /-- The notes that the level shows. -/
  notes : List Text
  escaped : Option Escape

namespace Outcome

/-- The command line makes no sense. -/
def usage : Outcome := ⟨2, [], "", [], none⟩

def help : Outcome := ⟨0, [], "", [], none⟩

/-- A command that is ended before it runs. -/
def ended (stop : Stop) : Outcome := ⟨1, [], "", [], some (.stop stop)⟩

/-- What a command that has run has to say. -/
def ofRun (verbose : Bool) (x : Logged Stop (List Shown × String)) : Outcome :=
  let (result, notes) := Logged.collect x
  let notes := Logged.shownAt (Level.choose verbose false) notes
  match result with
  | .ok (shown, written) => ⟨0, shown, written, notes, none⟩
  | .error (.failure f) => ⟨1, [.line ("[red]Error:[/red] " ++ f.text)], "", notes, none⟩
  | .error stop => ⟨1, [], "", notes, some (.stop stop)⟩

/-- What is left behind when all that there is to say has been handed to a console.  The
first refusal ends the command. -/
def on (console : Console) (o : Outcome) : Outcome :=
  match console.print [] o.shown with
  | (taken, some refusal) => ⟨1, taken, "", o.notes, some (.refusal refusal)⟩
  | (taken, none) =>
    match if o.written = "" then none else console.writes o.written with
    | some refusal => ⟨1, taken, "", o.notes, some (.refusal refusal)⟩
    | none => o

end Outcome

/-- Settings from all sources, single flags as options. -/
def settings (src : Sources) (config : Option Text) (options : List Text) :
    Logged Stop Settings := do
  let flags ← Logged.lift ((Settings.parseOptions options).mapError .failure)
  let flags := flags.map fun (name, v) => (.text name, v)
  let overrides ← Logged.lift ((Settings.Call.option.arguments flags).mapError .clash)
  Settings.load src config overrides

def trace (src : Sources) (path : Text) (config : Option Text) (options : List Text)
    (format : Text) : Logged Stop (List Shown × String) := do
  let s ← settings src config options
  let tree ← Document.load src.files path
  let lines ← Logged.lift ((Trace.under none s.toFlags tree).mapError .fault)
  Logged.note (toString lines.length ++ " events for " ++ path)
  if format = "json" then return ([], Output.traceData lines)
  else return ([.table (Output.traceTable path lines)], "")

def dependencies (src : Sources) (path : Text) : Logged Stop (List Shown × String) := do
  let s ← settings src none []
  let tree ← Document.load src.files path
  let records ← Logged.lift ((Dependencies.under none s.toFlags tree).mapError .fault)
  if records.isEmpty then return ([.line "[dim]No dependencies found[/dim]"], "")
  else return (records.map fun record => .line (Output.dependencyLine record), "")

def rule (type : Text) : Outcome :=
  match Grammar.standard.rule? type with
  | some r => ⟨0, [.table (Output.ruleTable type r)], "", [], none⟩
  | none =>
    let said : Text := type ++ " is not in the registry; it is skipped when walking"
    ⟨1, [.line ("[yellow]" ++ said ++ "[/yellow]")], "", [], none⟩

/-- Check that a text is a path, and that what it leads to may be read, if there is
anything. -/
def checkPath (files : Files) (path : Text) : Except Outcome Unit :=
  match files path with
  | .noPath limit => .error (.ended (.limit limit))
  | .unreadable => .error .usage
  | _ => .ok ()

/-- Check that a path leads to a file. -/
def checkFile (files : Files) (path : Text) : Except Outcome Unit :=
  match files path with
  | .file _ => .ok ()
  | _ => .error .usage

/-- The one tree file of a command, or how the command ends without it.  The settings
file comes first, and arguments that are too many last. -/
def treeFile (files : Files) (config : Option Text) (args : List Text) :
    Except Outcome Text := do
  config.forM (checkPath files)
  match args with
  | [] => .error .usage
  | path :: more =>
    checkPath files path
    checkFile files path
    if more.isEmpty then return path else .error .usage

/-- The outcome of a command on a tree file. -/
def onFile (src : Sources) (config : Option Text) (args : List Text) (verbose : Bool)
    (x : Text → Logged Stop (List Shown × String)) : Outcome :=
  match treeFile src.files config args with
  | .error outcome => outcome
  | .ok path => .ofRun verbose (x (Path.normal path))

/-- What a command line has to say. -/
def said (src : Sources) (args : List Text) : Outcome :=
  match Request.parse false args with
  | none => .usage
  | some .help => .help
  | some (.rule [type]) => rule type
  | some (.rule _) => .usage
  | some (.trace files config flags format verbose) =>
    onFile src config files verbose fun path =>
      trace src path (config.map Path.normal) flags format
  | some (.dependencies files verbose) =>
    onFile src none files verbose fun path => dependencies src path

/-- Run a command line. -/
def run (console : Console) (src : Sources) (args : List Text) : Outcome :=
  (said src args).on console

end Command

end Estree
