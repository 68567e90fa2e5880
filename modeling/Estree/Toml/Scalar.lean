import Estree.Limit
import Estree.Value

/-!
The scalars of TOML: text, numbers, dates and times.
-/

namespace Estree

namespace Toml

/-- What is wrong with a document. -/
inductive Flaw where
  | statement
  | lineEnd
  | key
  | equals
  | value
  | control
  | openText
  | escape
  | date
  | size
  | openList
  | openTable
  | header
  | again
  | depth
  deriving DecidableEq, Repr

namespace Flaw

def message : Flaw → String
  | .statement => "neither a key nor a table header"
  | .lineEnd => "the line goes on after its statement"
  | .key => "a key is missing"
  | .equals => "an equals sign is missing"
  | .value => "a value is missing"
  | .control => "a control character"
  | .openText => "the text has no end"
  | .escape => "an unknown escape"
  | .date => "no day of the calendar"
  | .size => "a whole number of too many digits"
  | .openList => "the list has no end"
  | .openTable => "the inline table has no end"
  | .header => "the table header has no end"
  | .again => "the name is taken"
  | .depth => "values are nested too deeply"

end Flaw

/-- A flaw and the number of characters from it to the end of the text. -/
structure Problem where
  flaw : Flaw
  left : Nat
  deriving DecidableEq, Repr

def flawed {α : Type} (flaw : Flaw) (s : List Char) : Except Problem α := .error ⟨flaw, s.length⟩

def isBlank (c : Char) : Bool := c = ' ' || c = '\t'

def skipBlank (s : List Char) : List Char := s.dropWhile isBlank

def skipSpace (s : List Char) : List Char := s.dropWhile fun c => isBlank c || c = '\n'

/-- Characters that no text or comment may hold; a line feed is judged apart. -/
def isControl (c : Char) : Bool := (c.toNat < 0x20 && c != '\t') || c.toNat = 0x7F

def isHex (c : Char) : Bool := c.isDigit || ('a' ≤ c && c ≤ 'f') || ('A' ≤ c && c ≤ 'F')

def digitValue (c : Char) : Nat :=
  if c.isDigit then c.toNat - '0'.toNat
  else if 'a' ≤ c then c.toNat - 'a'.toNat + 10
  else c.toNat - 'A'.toNat + 10

def natOf (base : Nat) (digits : List Char) : Nat :=
  digits.foldl (fun n c => n * base + digitValue c) 0

/-! ### Text -/

def escaped? : Char → Option Char
  | 'b' => some '\x08'
  | 't' => some '\t'
  | 'n' => some '\n'
  | 'f' => some '\x0c'
  | 'r' => some '\r'
  | '"' => some '"'
  | '\\' => some '\\'
  | _ => none

/-- The character that a number of hexadecimal digits writes. -/
def codePoint? (width : Nat) (s : List Char) : Option (Char × List Char) :=
  let ds := s.take width
  let n := natOf 16 ds
  if ds.length = width ∧ ds.all isHex ∧ n.isValidChar then
    some (Char.ofNat n, s.drop width)
  else none

/-- What follows a backslash at the end of a line: blanks, the line end, and all
space after it are left out. -/
def skipLineEnd (s : List Char) : Option (List Char) :=
  match s with
  | '\n' :: r => some (skipSpace r)
  | _ =>
    match skipBlank s with
    | [] => some []
    | '\n' :: r => some (skipSpace r)
    | _ => none

/-- What an escape after its backslash writes, and the rest. -/
def escape (multiline : Bool) (s : List Char) : Except Problem (List Char × List Char) :=
  match s with
  | 'u' :: r => match codePoint? 4 r with
    | some (c, t) => .ok ([c], t)
    | none => flawed .escape s
  | 'U' :: r => match codePoint? 8 r with
    | some (c, t) => .ok ([c], t)
    | none => flawed .escape s
  | k :: r =>
    if multiline && (isBlank k || k = '\n') then
      match skipLineEnd s with
      | some t => .ok ([], t)
      | none => flawed .escape s
    else match escaped? k with
      | some c => .ok ([c], r)
      | none => flawed .escape s
  | [] => flawed .escape s

/-- The text up to its closing quotes, after the characters already read, last
first. -/
def basicText (multiline : Bool) : Nat → List Char → List Char →
    Except Problem (List Char × List Char)
  | 0, _, s => flawed .openText s
  | fuel + 1, past, s =>
    match s with
    | [] => flawed .openText s
    | '"' :: r =>
      if multiline then
        match r with
        | '"' :: '"' :: t => .ok (past, t)
        | _ => basicText multiline fuel ('"' :: past) r
      else .ok (past, r)
    | '\\' :: r =>
      match escape multiline r with
      | .ok (cs, t) => basicText multiline fuel (cs.reverse ++ past) t
      | .error problem => .error problem
    | c :: r =>
      if isControl c && !(multiline && c = '\n') then flawed .control s
      else basicText multiline fuel (c :: past) r

/-- Literal text up to its closing quotes. -/
def literalText (multiline : Bool) : List Char → List Char → Except Problem (List Char × List Char)
  | _, [] => flawed .openText []
  | past, c :: r =>
    if c = '\'' then
      if multiline then
        match r with
        | '\'' :: '\'' :: t => .ok (past, t)
        | _ => literalText multiline (c :: past) r
      else .ok (past, r)
    else if isControl c && !(multiline && c = '\n') then flawed .control (c :: r)
    else literalText multiline (c :: past) r

/-- Of more than three closing quotes up to two belong to the text. -/
def closing (quote : Char) (past s : List Char) : String × List Char :=
  match s with
  | a :: b :: r =>
    if a = quote ∧ b = quote then (String.ofList (quote :: quote :: past).reverse, r)
    else if a = quote then (String.ofList (quote :: past).reverse, b :: r)
    else (String.ofList past.reverse, s)
  | [a] =>
    if a = quote then (String.ofList (quote :: past).reverse, [])
    else (String.ofList past.reverse, s)
  | [] => (String.ofList past.reverse, [])

/-- A line feed right after the opening quotes is left out. -/
def skipFirstLineEnd : List Char → List Char
  | '\n' :: r => r
  | s => s

/-- Text on one line, after its opening quote. -/
def lineText (quote : Char) (s : List Char) : Except Problem (String × List Char) := do
  let (past, r) ←
    if quote = '"' then basicText false (s.length + 1) [] s else literalText false [] s
  return (String.ofList past.reverse, r)

/-- Text over several lines, after its opening quotes. -/
def blockText (quote : Char) (s : List Char) : Except Problem (String × List Char) := do
  let s := skipFirstLineEnd s
  let (past, r) ← if quote = '"' then basicText true (s.length + 1) [] s else literalText true [] s
  return closing quote past r

/-! ### Dates and times -/

/-- A number of exactly so many digits, within bounds. -/
def fixed? (width low high : Nat) (s : List Char) : Option (Nat × List Char) :=
  let ds := s.take width
  let n := natOf 10 ds
  if ds.length = width ∧ ds.all Char.isDigit ∧ low ≤ n ∧ n ≤ high then some (n, s.drop width)
  else none

def sign? (c : Char) : List Char → Option (List Char)
  | d :: r => if c = d then some r else none
  | [] => none

def date? (s : List Char) : Option (Date × List Char) := do
  let (year, s) ← fixed? 4 0 9999 s
  let (month, s) ← fixed? 2 1 12 (← sign? '-' s)
  let (day, s) ← fixed? 2 1 31 (← sign? '-' s)
  return (⟨year, month, day⟩, s)

/-- Microseconds after a point; digits beyond the sixth are dropped. -/
def micros (s : List Char) : Nat × List Char :=
  match s with
  | '.' :: r =>
    let ds := r.takeWhile Char.isDigit
    if ds.isEmpty then (0, s)
    else (natOf 10 ((ds ++ List.replicate 6 '0').take 6), r.drop ds.length)
  | _ => (0, s)

def clock? (s : List Char) : Option (Clock × List Char) := do
  let (hour, s) ← fixed? 2 0 23 s
  let (minute, s) ← fixed? 2 0 59 (← sign? ':' s)
  let (second, s) ← fixed? 2 0 59 (← sign? ':' s)
  let (micro, s) := micros s
  return (⟨hour, minute, second, micro⟩, s)

/-- The minutes ahead of universal time. -/
def offset? (s : List Char) : Option (Int × List Char) :=
  match s with
  | 'Z' :: r | 'z' :: r => some (0, r)
  | '+' :: r => span 1 r
  | '-' :: r => span (-1) r
  | _ => none
where
  span (sign : Int) (r : List Char) : Option (Int × List Char) := do
    let (hours, r) ← fixed? 2 0 23 r
    let (minutes, r) ← fixed? 2 0 59 (← sign? ':' r)
    return (sign * (hours * 60 + minutes : Nat), r)

/-- The time that goes on with a date. -/
def clockAfterDate? (s : List Char) : Option (Clock × List Char) :=
  match s with
  | 'T' :: r | 't' :: r | ' ' :: r => clock? r
  | _ => none

def moment? (s : List Char) : Option (Moment × List Char) :=
  match date? s with
  | some (d, r) =>
    match clockAfterDate? r with
    | some (c, r) =>
      match offset? r with
      | some (minutes, r) => some (.dateTime d c (some minutes), r)
      | none => some (.dateTime d c none, r)
    | none => some (.date d, r)
  | none => (clock? s).map fun (c, r) => (.clock c, r)

/-- The date in a moment is a day of the calendar. -/
def onCalendar : Moment → Bool
  | .date d => d.valid
  | .clock _ => true
  | .dateTime d _ _ => d.valid

/-! ### Numbers -/

/-- Digits, single underscores between them left out. -/
def digits (isDigit : Char → Bool) : List Char → List Char × List Char
  | '_' :: d :: r =>
    if isDigit d then ((d :: (digits isDigit r).1), (digits isDigit r).2) else ([], '_' :: d :: r)
  | d :: r =>
    if isDigit d then ((d :: (digits isDigit r).1), (digits isDigit r).2) else ([], d :: r)
  | [] => ([], [])

/-- Digits of which the first is no underscore. -/
def digits? (isDigit : Char → Bool) (s : List Char) : Option (List Char × List Char) :=
  match s with
  | d :: _ => if isDigit d then some (digits isDigit s) else none
  | [] => none

/-- A whole number in a base other than ten. -/
def based? (s : List Char) : Option (Nat × List Char) :=
  match s with
  | '0' :: 'x' :: r => (digits? isHex r).map fun (ds, t) => (natOf 16 ds, t)
  | '0' :: 'b' :: r => (digits? (fun c => c = '0' || c = '1') r).map fun (ds, t) => (natOf 2 ds, t)
  | '0' :: 'o' :: r => (digits? (fun c => '0' ≤ c && c ≤ '7') r).map fun (ds, t) => (natOf 8 ds, t)
  | _ => none

def whole? : List Char → Option (List Char × List Char)
  | '0' :: r => some (['0'], r)
  | s => digits? Char.isDigit s

def fraction? : List Char → Option (List Char × List Char)
  | '.' :: r => digits? Char.isDigit r
  | _ => none

def exponent? : List Char → Option (Int × List Char)
  | 'e' :: r | 'E' :: r =>
    match r with
    | '-' :: r => (digits? Char.isDigit r).map fun (ds, t) => (-(natOf 10 ds : Int), t)
    | '+' :: r => (digits? Char.isDigit r).map fun (ds, t) => ((natOf 10 ds : Int), t)
    | r => (digits? Char.isDigit r).map fun (ds, t) => ((natOf 10 ds : Int), t)
  | _ => none

/-- A sign at the front of a text. -/
def signed : List Char → Bool × List Char
  | '-' :: r => (true, r)
  | '+' :: r => (false, r)
  | s => (false, s)

/-- The number at the front of a text, if there is one. -/
def number? (s : List Char) : Option (Except Problem (Value × List Char)) :=
  match based? s with
  | some (n, r) => some (.ok (.int n, r))
  | none =>
    let (negative, r) := signed s
    match whole? r with
    | none => none
    | some (ws, r) =>
      let (fs, r') := (fraction? r).getD ([], r)
      match exponent? r' with
      | some (e, t) =>
        some (.ok (.float (.ofDecimal negative (natOf 10 (ws ++ fs)) (e - fs.length)), t))
      | none =>
        if fs.isEmpty then
          if Limit.mostDigits < ws.length then some (flawed .size s)
          else some (.ok (.int (if negative then -(natOf 10 ws : Int) else natOf 10 ws), r))
        else some (.ok (.float (.ofDecimal negative (natOf 10 (ws ++ fs)) (-fs.length)), r'))

def specialFloats : List (List Char × Binary64) := [
  ("inf".toList, .infinite false),
  ("nan".toList, .nan),
  ("+inf".toList, .infinite false),
  ("-inf".toList, .infinite true),
  ("+nan".toList, .nan),
  ("-nan".toList, .nan)]

/-- A date, a time or a number. -/
def measure (s : List Char) : Except Problem (Value × List Char) :=
  match moment? s with
  | some (m, r) => if onCalendar m then .ok (.moment m, r) else flawed .date s
  | none =>
    match number? s with
    | some result => result
    | none =>
      match specialFloats.find? fun (w, _) => w.isPrefixOf s with
      | some (w, x) => .ok (.float x, s.drop w.length)
      | none => flawed .value s

end Toml

end Estree
