import Estree.Value

/-!
Flags handed to an operation as named arguments.  The names have to be text, and
each operation keeps one name for an argument of its own.
-/

namespace Estree

namespace Settings

/-- An operation that takes flags as arguments. -/
inductive Call where
  | override
  | option
  | copy
  deriving DecidableEq, Repr

/-- The name of an operation's own argument. -/
def Call.ownName : Call → String
  | .override => "config_file"
  | .option => "config_file"
  | .copy => "self"

inductive Clash where
  | notText
  | taken (call : Call)
  deriving DecidableEq, Repr

namespace Clash

def message (c : Clash) : String :=
  match c with
  | .notText => "keywords must be strings"
  | .taken .override =>
    s!"load_settings() got multiple values for argument '{Call.override.ownName}'"
  | .taken .option =>
    "estree_metrics.config.load_settings() got multiple values for keyword argument "
      ++ s!"'{Call.option.ownName}'"
  | .taken .copy =>
    s!"Settings.with_flags() got multiple values for argument '{Call.copy.ownName}'"

end Clash

/-- Flags as the named arguments of an operation. -/
def Call.arguments (call : Call) (flags : List (Value × Value)) :
    Except Clash (List (Text × Value)) :=
  match flags.mapM fun (name, v) => name.text?.map fun name => (name, v) with
  | none => .error .notText
  | some named =>
    if named.any fun (name, _) => name == call.ownName then .error (.taken call) else .ok named

end Settings

end Estree
