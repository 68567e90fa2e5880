import Estree.Files
import Estree.Log
import Estree.Settings
import Estree.Stop
import Estree.Text.Case
import Estree.Text.Utf8
import Estree.Toml.Reader

/-!
Loading settings.  Each source overrides those before it: the defaults, the
project file, a file that is asked for, the environment, and single flags.
-/

namespace Estree

/-- What settings are loaded from. -/
structure Sources where
  files : Files
  /-- The working directory. -/
  home : Text
  /-- The environment variables. -/
  env : List (Text × Text)

namespace Settings

def variableStem : Text := "ESTREE_METRICS_"

def projectFile : Text := "estree-metrics.toml"

/-! ### Words for switches -/

def onWords : List Text := ["true", "1", "yes", "on"]

def offWords : List Text := ["false", "0", "no", "off"]

/-- The switch that a word in any letter case stands for. -/
def switch? (s : Text) : Option Bool :=
  let lower := s.lowerAscii
  if onWords.contains lower then some true
  else if offWords.contains lower then some false
  else none

/-! ### Files -/

/-- The values of a file: its `settings` table if it has one, else all of it.
Whatever keeps the file from being read is a failure. -/
def tableOf (files : Files) (place path : Text) : Except Failure (List (Text × Value)) := do
  match fileTable with
  | .error problem => throw (configuration ("Invalid config file '" ++ path ++ "': " ++ problem))
  | .ok top =>
    match top.lookup ("settings" : Text) with
    | none => return top
    | some (.object _ fields) => return fields
    | some _ => throw (configuration ("Invalid [settings] table in '" ++ path ++ "'"))
where
  configuration (message : Text) : Failure := .configuration (.text message) []
  fileTable : Except String (List (Text × Value)) := do
    let found ← (files.bytes place).mapError Limit.message
    let bytes ← found.mapError (Unread.message path)
    let s ← (Text.Utf8.decode bytes).mapError Text.Utf8.Problem.message
    (Toml.read s).mapError fun problem => problem.message s

/-- Merge the values of a file into a table. -/
def mergeFile (files : Files) (place path : Text) (table : Dict Text Value) :
    Logged Stop (Dict Text Value) := do
  let values ← Logged.lift ((tableOf files place path).mapError .failure)
  Logged.note ("Merged settings from " ++ path)
  return table.putAll values

/-- Whether something stands at a place that goes under a path. -/
def isThere (files : Files) (place path : Text) : Logged Stop Bool :=
  Logged.lift ((files.isThere place).mapError fun limit => .limit (limit.named path))

/-- The path of the project file, which is looked for in the working directory. -/
def projectPath (src : Sources) : Text := src.home ++ "/" ++ projectFile

/-- Merge the project file, if there is one. -/
def mergeProject (src : Sources) (table : Dict Text Value) : Logged Stop (Dict Text Value) := do
  if ← isThere src.files projectFile (projectPath src) then
    mergeFile src.files projectFile (projectPath src) table
  else return table

/-- Merge the file that is asked for, which has to be there. -/
def mergeAsked (src : Sources) (config : Option Text) (table : Dict Text Value) :
    Logged Stop (Dict Text Value) :=
  match config with
  | none => pure table
  | some path => do
    if ← isThere src.files path path then mergeFile src.files path path table
    else throw (.failure (.configuration (.text ("Config file not found: " ++ path)) []))

/-! ### Environment -/

def variableOf (name : Text) : Text := variableStem ++ name.upper

/-- The value that the environment gives a flag.  A switch takes a word for one,
anything else takes the text as it is. -/
def fromVariable (key text : Text) (current : Value) : Except Failure Value :=
  match current with
  | .bool _ =>
    match switch? text with
    | some b => .ok (.bool b)
    | none => .error (.invalidFlag (.text key) (.text text) (.text "expected true/false"))
  | _ => .ok (.text text)

/-- The flags among those known that the environment sets. -/
def fromEnvironment (env : List (Text × Text)) :
    List (Text × Value) → Except Failure (List (Text × Value))
  | [] => .ok []
  | (name, current) :: rest =>
    match env.lookup (variableOf name) with
    | none => fromEnvironment env rest
    | some text => do
      let v ← fromVariable (variableOf name) text current
      let more ← fromEnvironment env rest
      return (name, v) :: more

def mergeEnvironment (env : List (Text × Text)) (table : Dict Text Value) :
    Except Failure (Dict Text Value) := do
  return table.putAll (← fromEnvironment env table.entries)

/-! ### All sources -/

def defaultTable : Dict Text Value := default.toTable

/-- The settings of all sources.  They are checked once, after the last. -/
def load (src : Sources) (config : Option Text) (overrides : List (Text × Value)) :
    Logged Stop Settings := do
  let table ← mergeProject src defaultTable
  let table ← mergeAsked src config table
  let table ← Logged.lift ((mergeEnvironment src.env table).mapError .failure)
  Logged.lift ((ofTable (table.putAll overrides)).mapError .ofFailure)

/-- The variables that loading looks for: one for every flag known before the
environment is asked. -/
def variableNames (src : Sources) (config : Option Text) : List Text :=
  match (Logged.collect (mergeProject src defaultTable >>= mergeAsked src config)).1 with
  | .ok table => table.keys.map variableOf
  | .error _ => []

/-! ### Single flags -/

/-- A flag written `name=value`, split at the first equals sign; words for switches
are switches. -/
def parseOption (option : Text) : Except Failure (Text × FlagValue) :=
  let name := option.letters.takeWhile (· != .char '=')
  match option.letters.drop name.length with
  | .char '=' :: raw =>
    if name.isEmpty then bad
    else .ok (⟨name⟩, ((switch? ⟨raw⟩).map FlagValue.switch).getD (.word ⟨raw⟩))
  | _ => bad
where
  bad : Except Failure (Text × FlagValue) :=
    .error (.invalidFlag (.text option) (.text option) (.text "expected name=value"))

def parseOptions : List Text → Except Failure (List (Text × Value))
  | [] => .ok []
  | option :: rest => do
    let (name, flag) ← parseOption option
    let more ← parseOptions rest
    return (name, flag.toValue) :: more

end Settings

end Estree
