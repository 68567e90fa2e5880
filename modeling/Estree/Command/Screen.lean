import Estree.Command.Output

/-!
What a command shows, as plain text for a screen: markup is taken out, and the
columns of a table stand under each other.
-/

namespace Estree

namespace Command

namespace Screen

/-- The markup that the commands use. -/
def markup : List Text :=
  ["red", "cyan", "dim", "yellow"].flatMap fun name : String =>
    [Text.ofString ("[" ++ name ++ "]"), Text.ofString ("[/" ++ name ++ "]")]

/-- The text without its markup.  A count of characters still to be left out goes
along. -/
def unmarked : Nat → List Letter → List Letter
  | _, [] => []
  | n + 1, _ :: rest => unmarked n rest
  | 0, l :: rest =>
    match markup.find? fun m => m.letters.isPrefixOf (l :: rest) with
    | some m => unmarked (m.length - 1) rest
    | none => l :: unmarked 0 rest

def line (s : Text) : Text := ⟨unmarked 0 s.letters⟩

/-- The width that each column needs. -/
def widths (rows : List (List Text)) : List Nat :=
  rows.foldl (fun acc row => widen acc (row.map Text.length)) []
where
  widen : List Nat → List Nat → List Nat
    | [], ns => ns
    | ms, [] => ms
    | m :: ms, n :: ns => max m n :: widen ms ns

def row (ws : List Nat) (cells : List Text) : Text :=
  Text.intercalate "  " (List.zipWith Output.padRight ws cells)

/-- A table under its title, its columns named in the first row. -/
def table (t : Table) : List Text :=
  let rows := (t.columns :: t.rows).map fun cells => cells.map line
  t.title :: rows.map (row (widths rows))

end Screen

def Shown.onScreen : Shown → List Text
  | .line s => [Screen.line s]
  | .table t => Screen.table t

end Command

end Estree
