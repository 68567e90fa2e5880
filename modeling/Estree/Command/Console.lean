import Estree.Command.Output

/-!
The console, which takes what a command puts out or refuses it: markup that it cannot make
out, letters that it cannot write.
-/

namespace Estree

namespace Command

/-- Why something is not put out. -/
structure Refusal where
  kind : String
  message : Text
  deriving DecidableEq, Repr

/-- A console is known by what it refuses. -/
structure Console where
  /-- Why it refuses an item after others that it has taken, if it does. -/
  shows : List Shown → Shown → Option Refusal
  /-- Why it refuses a text without decoration, if it does. -/
  writes : String → Option Refusal

namespace Console

/-- A console that takes everything. -/
def keeping : Console := ⟨fun _ _ => none, fun _ => none⟩

/-- The items that are taken, up to the first that is refused, and why it is.  Those that
were taken before go along. -/
def print (c : Console) (before : List Shown) : List Shown → List Shown × Option Refusal
  | [] => (before, none)
  | item :: rest =>
    match c.shows before item with
    | some refusal => (before, some refusal)
    | none => print c (before ++ [item]) rest

end Console

end Command

end Estree
