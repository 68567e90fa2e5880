import Estree.Value.Display

/-!
Failures that are reported to the user: what is wrong with the input.
-/

namespace Estree

inductive Failure where
  | general (message : Value) (details : List (Value × Value))
  | configuration (message : Value) (details : List (Value × Value))
  | invalidFlag (name value reason : Value)
  | tree (message : Value) (details : List (Value × Value))
  /-- A tree document that cannot be read. -/
  | unreadable (source reason : Value)
  /-- A document that is no tree, and the file it stands in, if it stands in one. -/
  | notATree (reason file : Value)
  deriving Repr

namespace Failure

def message : Failure → Value
  | .general message _ => message
  | .configuration message _ => message
  | .invalidFlag name value _ =>
    .text ("Invalid configuration for " ++ name.plain ++ ": " ++ value.quoted)
  | .tree message _ => message
  | .unreadable source _ => .text ("Cannot load syntax tree: " ++ source.plain)
  | .notATree reason _ => .text ("Not a syntax tree: " ++ reason.plain)

def details : Failure → List (Value × Value)
  | .general _ details => details
  | .configuration _ details => details
  | .invalidFlag name value reason =>
    [(.text "key", .text name.plain), (.text "value", .text value.plain), (.text "reason", reason)]
  | .tree _ details => details
  | .unreadable source reason => [(.text "source", source), (.text "reason", reason)]
  | .notATree reason file =>
    (.text "reason", reason) :: if file.truthy then [(.text "filepath", .text file.plain)] else []

/-- The message with the details after it. -/
def text (f : Failure) : Text :=
  if f.details.isEmpty then f.message.plain
  else
    let parts := f.details.map fun (k, v) => k.plain ++ "=" ++ v.plain
    f.message.plain ++ " (" ++ Text.intercalate ", " parts ++ ")"

/-- What keeps a failure from being reported, if anything does: a flag that cannot
be written, or a message that is no text and has no details to stand with. -/
def limit? : Failure → Option Limit
  | .invalidFlag name value _ =>
    (name.limit? Limit.mostLevels).or (value.limit? Limit.mostLevels)
  | f =>
    match f.message with
    | .text _ => none
    | v => if f.details.isEmpty then some (.wordless v.kind) else none

/-- Failures about settings files, flags and values. -/
def isConfiguration : Failure → Bool
  | .configuration .. => true
  | .invalidFlag .. => true
  | _ => false

/-- Failures about tree documents. -/
def isTree : Failure → Bool
  | .tree .. => true
  | .unreadable .. => true
  | .notATree .. => true
  | _ => false

end Failure

end Estree
