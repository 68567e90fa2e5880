import Estree.Toml.Scalar
import Estree.Toml.Section

/-!
Reading TOML documents.
-/

namespace Estree

namespace Toml

/-! ### Keys -/

def isBare (c : Char) : Bool := c.isAlphanum || c = '-' || c = '_'

def keyPart (s : List Char) : Except Problem (String × List Char) :=
  match s with
  | '"' :: r => lineText '"' r
  | '\'' :: r => lineText '\'' r
  | c :: _ =>
    if isBare c then .ok (String.ofList (s.takeWhile isBare), s.dropWhile isBare) else flawed .key s
  | [] => flawed .key s

/-- The parts of a dotted key and the blanks after it. -/
def keyParts : Nat → List Char → Except Problem (List String × List Char)
  | 0, s => flawed .key s
  | fuel + 1, s => do
    let (part, r) ← keyPart s
    match skipBlank r with
    | '.' :: t => do
      let (more, t) ← keyParts fuel (skipBlank t)
      return (part :: more, t)
    | t => return ([part], t)

/-- A dotted key as the path to its table and the name in it. -/
structure Key where
  path : List String
  name : String

def Key.parts (k : Key) : List String := k.path ++ [k.name]

def key (s : List Char) : Except Problem (Key × List Char) := do
  let (parts, r) ← keyParts (s.length + 1) s
  return (⟨parts.dropLast, parts.getLastD ""⟩, r)

/-! ### Space -/

/-- Leave out a comment up to the end of its line. -/
def skipComment (s : List Char) : Except Problem (List Char) :=
  match s with
  | '#' :: r =>
    let body := r.takeWhile (· != '\n')
    if body.any isControl then flawed .control s else .ok (r.drop body.length)
  | _ => .ok s

/-- Leave out space and comments inside a list. -/
def skipGap : Nat → List Char → Except Problem (List Char)
  | 0, s => .ok s
  | fuel + 1, s => do
    match skipSpace s with
    | '#' :: r => skipGap fuel (← skipComment ('#' :: r))
    | t => return t

def gap (s : List Char) : Except Problem (List Char) := skipGap (s.length + 1) s

/-! ### Values -/

/-- The room that nested values share. -/
def room : Nat := 985

/-- The room that a list takes beyond that of its members. -/
def listRoom : Nat := 2

/-- The room that an inline table takes beyond that of its values. -/
def tableRoom : Nat := 3

mutual

/-- The value at the front of a text, in the room that is left.  A bracket leads to
two calls, one for the members and one for the first of them, and a comma to one, so
the fuel of `pair`, two for each character and one for the end, is never used up. -/
def value : Nat → Nat → List Char → Except Problem (Value × List Char)
  | 0, _, s => flawed .value s
  | fuel + 1, room, s =>
    match s with
    | '"' :: '"' :: '"' :: r => (blockText '"' r).map fun (t, r) => (.text t, r)
    | '"' :: r => (lineText '"' r).map fun (t, r) => (.text t, r)
    | '\'' :: '\'' :: '\'' :: r => (blockText '\'' r).map fun (t, r) => (.text t, r)
    | '\'' :: r => (lineText '\'' r).map fun (t, r) => (.text t, r)
    | 't' :: 'r' :: 'u' :: 'e' :: r => .ok (.bool true, r)
    | 'f' :: 'a' :: 'l' :: 's' :: 'e' :: r => .ok (.bool false, r)
    | '[' :: r => do
      if room < listRoom then flawed .depth s
      else match ← gap r with
        | ']' :: t => return (.list [], t)
        | t => do
          let (vs, r) ← members fuel (room - listRoom) [] t
          return (.list vs, r)
    | '\x7b' :: r =>
      if room < tableRoom then flawed .depth s
      else match skipBlank r with
        | '\x7d' :: t => .ok (.mapping [], t)
        | t => (pairs fuel (room - tableRoom) [] t).map fun (items, r) =>
          (.mapping (toFields items), r)
    | _ => measure s

/-- The members of a list up to its end, after those already read, last first. -/
def members : Nat → Nat → List Value → List Char → Except Problem (List Value × List Char)
  | 0, _, _, s => flawed .openList s
  | fuel + 1, room, past, s => do
    let (v, r) ← value fuel room s
    match ← gap r with
    | ']' :: t => return ((v :: past).reverse, t)
    | ',' :: t =>
      match ← gap t with
      | ']' :: t => return ((v :: past).reverse, t)
      | t => members fuel room (v :: past) t
    | t => flawed .openList t

/-- The entries of an inline table up to its end, after those already read. -/
def pairs : Nat → Nat → Items → List Char → Except Problem (Items × List Char)
  | 0, _, _, s => flawed .openTable s
  | fuel + 1, room, items, s => do
    let (k, r) ← key s
    match r with
    | '=' :: r => do
      let (v, r) ← value fuel room (skipBlank r)
      match items.assign 0 [] k.path k.name v with
      | none => flawed .again s
      | some items =>
        match skipBlank r with
        | '\x7d' :: t => return (items, t)
        | ',' :: t => pairs fuel room items (skipBlank t)
        | t => flawed .openTable t
    | _ => flawed .equals r

end

/-! ### Statements -/

/-- The document so far and the table that keys now go to. -/
structure Progress where
  items : Items
  header : List String
  /-- The number of headers so far. -/
  part : Nat

namespace Progress

def empty : Progress := ⟨[], [], 0⟩

/-- A key with its value. -/
def pair (d : Progress) (s : List Char) : Except Problem (Progress × List Char) := do
  let (k, r) ← key s
  match r with
  | '=' :: r => do
    let (v, r) ← value (2 * r.length + 1) room (skipBlank r)
    match d.items.assign d.part d.header k.path k.name v with
    | some items => return ({ d with items := items }, r)
    | none => flawed .again s
  | _ => flawed .equals r

/-- The header of a table, after its bracket. -/
def tableHeader (d : Progress) (s : List Char) : Except Problem (Progress × List Char) := do
  let (k, r) ← key (skipBlank s)
  match d.items.declare k.path k.name, r with
  | none, _ => flawed .again s
  | some items, ']' :: t => return (⟨items, k.parts, d.part + 1⟩, t)
  | some _, _ => flawed .header r

/-- The header of a table in a list, after its brackets. -/
def listHeader (d : Progress) (s : List Char) : Except Problem (Progress × List Char) := do
  let (k, r) ← key (skipBlank s)
  match d.items.append k.path k.name, r with
  | none, _ => flawed .again s
  | some items, ']' :: ']' :: t => return (⟨items, k.parts, d.part + 1⟩, t)
  | some _, _ => flawed .header r

/-- One statement, or nothing on a line that has none. -/
def statement (d : Progress) (s : List Char) : Except Problem (Progress × List Char) :=
  match s with
  | [] => .ok (d, s)
  | '\n' :: _ => .ok (d, s)
  | '#' :: _ => .ok (d, s)
  | '[' :: '[' :: r => d.listHeader r
  | '[' :: r => d.tableHeader r
  | c :: _ => if isBare c || c = '"' || c = '\'' then d.pair s else flawed .statement s

/-- Line after line to the end of the document. -/
def lines : Nat → Progress → List Char → Except Problem Progress
  | 0, _, s => flawed .lineEnd s
  | fuel + 1, d, s => do
    let (d, r) ← d.statement (skipBlank s)
    match ← skipComment (skipBlank r) with
    | [] => return d
    | '\n' :: t => lines fuel d t
    | t => flawed .lineEnd t

end Progress

/-- The text with a carriage return before a line feed left out. -/
def lineFeeds : List Char → List Char
  | '\r' :: '\n' :: rest => '\n' :: lineFeeds rest
  | c :: rest => c :: lineFeeds rest
  | [] => []

/-- The top table of a document. -/
def read (s : List Char) : Except Problem (List (Text × Value)) := do
  let s := lineFeeds s
  let d ← Progress.lines (s.length + 1) .empty s
  return toFields d.items

namespace Problem

/-- The problem with its line, counted from one. -/
def message (p : Problem) (s : List Char) : String :=
  let s := lineFeeds s
  let line := (s.take (s.length - p.left)).count '\n' + 1
  s!"{p.flaw.message} (line {line})"

end Problem

end Toml

end Estree
