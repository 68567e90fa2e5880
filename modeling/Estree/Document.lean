import Estree.Files
import Estree.Json.Reader
import Estree.Log
import Estree.Node
import Estree.Stop
import Estree.Text.Utf8

/-!
Tree documents.
-/

namespace Estree

namespace Document

/-- The tree that a text holds: an object with a node type. -/
def read (source : Text) (s : List Letter) : Except Stop Value :=
  match Json.read s with
  | .error (.longNumber digits) => .error (.limit (.longNumber digits))
  | .error (.flaw flaw left) =>
    .error (.failure (.unreadable (.text source) (.text ("invalid JSON: " ++ flaw.placed left s))))
  | .ok tree =>
    if tree.isNode then .ok tree
    else .error (.failure (.notATree (.text "top-level value has no 'type' discriminator") .null))

/-- The text of a file, its line ends made uniform, or why it cannot be had. -/
def textOf (files : Files) (path : Text) : Except Limit (Except String (List Char)) := do
  match ← files.bytes path with
  | .error reason => return .error (reason.message path)
  | .ok bytes =>
    match Text.Utf8.decode bytes with
    | .ok s => return .ok (Text.unixLines s)
    | .error problem => return .error problem.message

/-- The end of reading as one about a file. -/
def inFile (path : Text) : Stop → Stop
  | .failure (.notATree reason _) => .failure (.notATree reason (.text path))
  | stop => stop

/-- The tree that a file holds. -/
def load (files : Files) (path : Text) : Logged Stop Value :=
  match textOf files path with
  | .error limit => throw (.limit limit)
  | .ok (.error reason) => throw (.failure (.unreadable (.text path) (.text reason)))
  | .ok (.ok s) => do
    Logged.note ("Loaded " ++ toString s.length ++ " bytes of tree JSON from " ++ path)
    match read path (s.map .char) with
    | .ok tree => return tree
    | .error stop => throw (inFile path stop)

end Document

end Estree
