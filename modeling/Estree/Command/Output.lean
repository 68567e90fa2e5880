import Estree.Json.Writer
import Estree.Trace
import Estree.Value.Display

/-!
What the commands show: tables of text and rows of data.
-/

namespace Estree

namespace Command

structure Table where
  title : Text
  columns : List Text
  rows : List (List Text)
  deriving DecidableEq, Repr

/-- Something shown on the console. -/
inductive Shown where
  | line (s : Text)
  | table (t : Table)
  deriving DecidableEq, Repr

namespace Output

/-! ### Traces -/

def eventName : Walk.Signal → Text
  | .enter => "create_scope"
  | .visit => "process_node"
  | .leave => "pop_scope"

def typeValue (node : Value) : Value := (node.type?.map Value.text).getD .null

def texts (vs : List Value) : Value := .list (vs.map fun v => .text v.plain)

/-- What a visit adds to a row of data. -/
def contributionData (c : Contribution) : List (Text × Value) :=
  [("line", c.line), ("lloc", c.lloc), ("cyclomatic", c.cyclomatic),
    ("operators", texts c.operators), ("operands", texts c.operands)]

/-- An event as a row of data. -/
def lineData (l : Trace.Line) : Value :=
  .mapping (("event", .text (eventName l.signal)) :: ("depth", .int l.depth)
    :: ("type", typeValue l.node) :: (l.contribution.map contributionData).getD [])

def traceData (lines : List Trace.Line) : String := Json.write (.list (lines.map lineData)) ++ "\n"

def marker : Walk.Signal → Text
  | .enter => "[cyan]+scope[/cyan]"
  | .visit => "node"
  | .leave => "[cyan]-scope[/cyan]"

/-- The node type, two spaces further in for each open scope. -/
def label (l : Trace.Line) : Text :=
  Text.replicate (2 * l.depth.toNat) ' ' ++ (typeValue l.node).plain

def joined (vs : List Value) : Text := Text.intercalate " " (vs.map Value.plain)

/-- What a visit adds to a row of a table; no line and line zero are left out. -/
def contributionCells (c : Contribution) : List Text :=
  [if c.line.truthy then c.line.plain else "", c.lloc.plain, c.cyclomatic.plain,
    joined c.operators, joined c.operands]

/-- An event as a row of a table.  The signal, and not the contribution, decides what is
shown of it; a visit always has one. -/
def lineCells (l : Trace.Line) : List Text :=
  match l.signal with
  | .visit => marker .visit :: label l :: (l.contribution.map contributionCells).getD []
  | signal => [marker signal, label l, "", "", "", "", ""]

def traceTable (title : Text) (lines : List Trace.Line) : Table where
  title := title
  columns := ["Event", "Node", "Line", "LLOC", "CC", "Operators", "Operands"]
  rows := lines.map lineCells

/-! ### Dependencies -/

def padLeft (width : Nat) (s : Text) : Text := Text.replicate (width - s.length) ' ' ++ s

def padRight (width : Nat) (s : Text) : Text := s ++ Text.replicate (width - s.length) ' '

/-- A line number, or a question mark for none; a switch counts as its number. -/
def lineNumber (v : Value) : Text :=
  if v.truthy then ((v.int?.map fun i => Text.ofString (toString i)).getD v.plain) else "?"

def dependencyLine (record : Value) : Text :=
  padLeft 5 (lineNumber (record.prop "line")) ++ "  " ++ padRight 8 (record.prop "type").plain
    ++ "  " ++ (record.prop "path").plain

/-! ### Rules -/

def orDash (s : Text) : Text := if s = "" then "-" else s

def field : Entry → Text
  | .computed _ => "computed"
  | e => e.shown.plain

/-- A scope that is not opened is shown as false, whatever says so. -/
def scope : Entry → Text
  | .computed _ => "computed"
  | e => (if e.shown.truthy then e.shown else .bool false).plain

def mark (m : Mark) : Text :=
  (if m.resolve.isAbsent then m.identifier.shown.plain else "computed")
    ++ (if m.filter.isAbsent then "" else " (conditional)")

def marks (ms : List Mark) : Text := orDash (Text.intercalate ", " (ms.map mark))

def ruleTable (type : Text) (r : Rule) : Table where
  title := type
  columns := ["Field", "Value"]
  rows := [
    ["children", orDash (Text.intercalate ", " (r.children.map fun name => name.shown.plain))],
    ["lloc", field r.lloc],
    ["cyclomatic", field r.cyclomatic],
    ["new scope", scope r.newScope],
    ["operators", marks r.operators],
    ["operands", marks r.operands],
    ["dependencies", if r.dependencies.isAbsent then "-" else "yes"]]

end Output

end Command

end Estree
