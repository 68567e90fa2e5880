import Estree.Command
import Estree.Command.Screen

/-!
The program `estree-metrics`: it looks at the files and variables that a command
reads, runs the command, and shows what it leaves behind.
-/

namespace Estree

namespace Program

/-- The paths that a request names. -/
def named : Command.Request → List Text
  | .trace files config _ _ _ => files.take 1 ++ config.toList
  | .dependencies files _ => files.take 1
  | _ => []

/-- The paths that a request reads. -/
def paths (request : Command.Request) : List Text :=
  (named request).flatMap fun path => [path, Path.normal path]

def configOf : Command.Request → Option Text
  | .trace _ config _ _ _ => config.map Path.normal
  | _ => none

/-- Whether the way to a path can be followed. -/
def leads (path : Text) : IO Bool := do
  try
    let _ ← IO.FS.realPath path.marked
    return true
  catch _ => return false

/-- What a failed attempt to read says about a path. -/
def foundOf (path : Text) : IO.Error → IO Found
  | .inappropriateType _ code _ => return if code = 20 then .blocked else .directory
  | .invalidArgument _ code _ => return if code = 36 then .tooLong else .missing
  | .permissionDenied .. => return if ← leads path then .unreadable else .denied
  | _ => return .missing

def lookAt (path : Text) : IO Found := do
  if let some limit := Path.limit? path then return .noPath limit
  try
    return .file (← IO.FS.readBinFile path.marked).toList
  catch e => foundOf path e

/-- Everything that a request reads. -/
def sources (request : Command.Request) : IO Sources := do
  let found ← (Settings.projectFile :: paths request).mapM fun path => return (path, ← lookAt path)
  let home ← IO.currentDir
  let src : Sources := {
    files := fun path => (found.lookup path).getD .missing
    home := home.toString
    env := [] }
  let env ← (Settings.variableNames src (configOf request)).filterMapM fun name =>
    return (← IO.getEnv name.marked).map fun text => (name, Text.ofString text)
  return { src with env := env }

def usage : String := "usage: estree-metrics trace|dependencies|syntax [options] ARGUMENT"

def present (outcome : Command.Outcome) : IO Unit := do
  for note in outcome.notes do
    IO.eprintln ("DEBUG " ++ note.marked)
  for shown in outcome.shown do
    for line in shown.onScreen do
      IO.println line.marked
  IO.print outcome.written
  if let some escape := outcome.escaped then
    IO.eprintln escape.message.marked
  if outcome.exit = 2 then
    IO.eprintln usage

end Program

end Estree

open Estree in
def main (args : List String) : IO UInt32 := do
  let args := args.map Text.ofString
  match Command.Request.parse false args with
  | none =>
    IO.eprintln Program.usage
    return 2
  | some .help =>
    IO.println Program.usage
    return 0
  | some request =>
    let outcome := Command.run .keeping (← Program.sources request) args
    Program.present outcome
    return outcome.exit.toUInt32
