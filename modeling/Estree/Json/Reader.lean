import Estree.Dict
import Estree.Limit
import Estree.Value

/-!
Reading JSON text.  Beyond the standard it takes `NaN`, `Infinity` and
`-Infinity`; of a repeated name the last value stands.
-/

namespace Estree

namespace Json

/-- What is wrong with a text. -/
inductive Flaw where
  | mark
  | value
  | extra
  | name
  | colon
  | comma
  | openString
  | control
  | escape
  | codeUnit
  deriving DecidableEq, Repr

namespace Flaw

def message : Flaw → String
  | .mark => "Unexpected UTF-8 BOM (decode using utf-8-sig)"
  | .value => "Expecting value"
  | .extra => "Extra data"
  | .name => "Expecting property name enclosed in double quotes"
  | .colon => "Expecting ':' delimiter"
  | .comma => "Expecting ',' delimiter"
  | .openString => "Unterminated string starting at"
  | .control => "Invalid control character at"
  | .escape => "Invalid \\escape"
  | .codeUnit => "Invalid \\uXXXX escape"

end Flaw

/-- What keeps a text from being read. -/
inductive Problem where
  /-- A flaw, and the number of letters from it to the end of the text. -/
  | flaw (flaw : Flaw) (left : Nat)
  /-- A whole number of so many digits, which is too many. -/
  | longNumber (digits : Nat)
  deriving DecidableEq, Repr

/-- A reader takes what it reads off the front of the text. -/
abbrev Result (α : Type) := Except Problem (α × List Letter)

def flawed {α : Type} (flaw : Flaw) (s : List Letter) : Except Problem α :=
  .error (.flaw flaw s.length)

def isBlank (l : Letter) : Bool := l = ' ' || l = '\t' || l = '\n' || l = '\r'

def skipBlank (s : List Letter) : List Letter := s.dropWhile isBlank

/-! ### Text -/

def hexValue? : Letter → Option Nat
  | .char c =>
    if c.isDigit then some (c.toNat - '0'.toNat)
    else if 'a' ≤ c ∧ c ≤ 'f' then some (c.toNat - 'a'.toNat + 10)
    else if 'A' ≤ c ∧ c ≤ 'F' then some (c.toNat - 'A'.toNat + 10)
    else none
  | .surrogate _ => none

/-- The number that four hexadecimal digits write. -/
def codeUnit? (a b c d : Letter) : Option Nat := do
  return (((← hexValue? a) * 16 + (← hexValue? b)) * 16 + (← hexValue? c)) * 16 + (← hexValue? d)

def escaped? : Letter → Option Char
  | .char '"' => some '"'
  | .char '\\' => some '\\'
  | .char '/' => some '/'
  | .char 'b' => some '\x08'
  | .char 'f' => some '\x0c'
  | .char 'n' => some '\n'
  | .char 'r' => some '\r'
  | .char 't' => some '\t'
  | _ => none

/-- What stands between quotes: letters, and code units written as numbers. -/
inductive Part where
  | letter (l : Letter)
  | unit (n : Nat)

/-- The parts up to the closing quote, last first, of the text `opened`.  After the
four digits of a code unit the text must go on. -/
def parts (opened : List Letter) : List Part → List Letter → Result (List Part)
  | _, [] => .error (.flaw .openString (opened.length + 1))
  | past, l :: r =>
    if l = '"' then .ok (past, r)
    else if l = '\\' then
      match r with
      | [] => .error (.flaw .openString (opened.length + 1))
      | .char 'u' :: a :: b :: d :: e :: f :: t =>
        match codeUnit? a b d e with
        | some n => parts opened (.unit n :: past) (f :: t)
        | none => flawed .codeUnit r
      | .char 'u' :: _ => flawed .codeUnit r
      | k :: t =>
        match escaped? k with
        | some c => parts opened (.letter c :: past) t
        | none => flawed .escape (l :: r)
    else if l.code < 0x20 then flawed .control (l :: r)
    else parts opened (.letter l :: past) r

def isHigh (n : Nat) : Bool := 0xD800 ≤ n && n < 0xDC00

def isLow (n : Nat) : Bool := 0xDC00 ≤ n && n < 0xE000

/-- Parts as letters: a high surrogate and the low one after it are one character
if both are written as numbers. -/
def joinParts : List Part → List Letter
  | [] => []
  | .letter l :: r => l :: joinParts r
  | .unit a :: .unit b :: r =>
    if isHigh a && isLow b then
      .char (Char.ofNat (0x10000 + (a - 0xD800) * 0x400 + (b - 0xDC00))) :: joinParts r
    else .ofCode a :: joinParts (.unit b :: r)
  | .unit a :: r => .ofCode a :: joinParts r

/-- The text after an opening quote. -/
def string (s : List Letter) : Except Problem (Text × List Letter) := do
  let (past, r) ← parts s [] s
  return (⟨joinParts past.reverse⟩, r)

/-! ### Numbers -/

def isDigit (l : Letter) : Bool := (l.char?.map Char.isDigit).getD false

def natOf (digits : List Letter) : Nat :=
  digits.foldl (fun n l => n * 10 + (l.code - '0'.toNat)) 0

/-- The digits at the front of a text, and the rest. -/
def digits (s : List Letter) : List Letter × List Letter := s.span isDigit

/-- The digits after a point, if there is a point and a digit. -/
def fraction (s : List Letter) : Option (List Letter) × List Letter :=
  match s with
  | .char '.' :: r => match digits r with
    | ([], _) => (none, s)
    | (ds, t) => (some ds, t)
  | _ => (none, s)

/-- The exponent, if there is a mark and a digit. -/
def exponent (s : List Letter) : Option Int × List Letter :=
  match s with
  | .char 'e' :: r | .char 'E' :: r =>
    match r with
    | .char '-' :: r => power true r
    | .char '+' :: r => power false r
    | r => power false r
  | _ => (none, s)
where
  power (negative : Bool) (r : List Letter) : Option Int × List Letter :=
    match digits r with
    | ([], _) => (none, s)
    | (ds, t) => (some (if negative then -(natOf ds : Int) else natOf ds), t)

/-- The digits before the point: a zero alone, or digits that begin with another. -/
def wholePart : List Letter → Option (List Letter × List Letter)
  | .char '0' :: r => some (['0'], r)
  | s => match digits s with
    | ([], _) => none
    | (ds, r) => some (ds, r)

/-- The whole number of some digits, which must not be too many. -/
def whole (negative : Bool) (ds : List Letter) : Except Problem Value :=
  if Limit.mostDigits < ds.length then .error (.longNumber ds.length)
  else .ok (.int (if negative then -(natOf ds : Int) else natOf ds))

/-- The number at the front of a text.  Without point and exponent it is whole. -/
def number (s : List Letter) : Result Value :=
  let (negative, r) := match s with
    | .char '-' :: r => (true, r)
    | _ => (false, s)
  match wholePart r with
  | none => flawed .value s
  | some (ds, r) =>
    match fraction r with
    | (frac, r) =>
      match frac, exponent r with
      | none, (none, t) => (whole negative ds).map fun v => (v, t)
      | frac, (e, t) =>
        let fs := frac.getD []
        .ok (.float (.ofDecimal negative (natOf (ds ++ fs)) (e.getD 0 - fs.length)), t)

/-! ### Values -/

def words : List (Text × Value) := [
  ("null", .null),
  ("true", .bool true),
  ("false", .bool false),
  ("NaN", .float .nan),
  ("Infinity", .float (.infinite false)),
  ("-Infinity", .float (.infinite true))]

/-- A word or a number. -/
def scalar (s : List Letter) : Result Value :=
  match words.find? fun (w, _) => w.letters.isPrefixOf s with
  | some (w, v) => .ok (v, s.drop w.length)
  | none => number s

mutual

/-- The value at the front of a text.  A bracket leads to two calls, one for the
members and one for the first of them, and a comma to one, so the fuel of `read`, two
for each letter and one for the end, is never used up. -/
def value : Nat → List Letter → Result Value
  | 0, s => flawed .value s
  | fuel + 1, s =>
    match s with
    | .char '"' :: r => (string r).map fun (t, r) => (.text t, r)
    | .char '[' :: r =>
      match skipBlank r with
      | .char ']' :: t => .ok (.list [], t)
      | t => (items fuel [] t).map fun (vs, r) => (.list vs, r)
    | .char '\x7b' :: r =>
      match skipBlank r with
      | .char '\x7d' :: t => .ok (.mapping [], t)
      | t => (members fuel .empty t).map fun (d, r) => (.mapping d.entries, r)
    | _ => scalar s

/-- The members of a list up to its end, after those already read, last first. -/
def items : Nat → List Value → List Letter → Except Problem (List Value × List Letter)
  | 0, _, s => flawed .value s
  | fuel + 1, past, s => do
    let (v, r) ← value fuel s
    match skipBlank r with
    | .char ']' :: t => return ((v :: past).reverse, t)
    | .char ',' :: t => items fuel (v :: past) (skipBlank t)
    | t => flawed .comma t

/-- The properties of an object up to its end, after those already read. -/
def members : Nat → Dict Text Value → List Letter →
    Except Problem (Dict Text Value × List Letter)
  | 0, _, s => flawed .name s
  | fuel + 1, past, s =>
    match s with
    | .char '"' :: r => do
      let (name, r) ← string r
      match skipBlank r with
      | .char ':' :: r => do
        let (v, r) ← value fuel (skipBlank r)
        match skipBlank r with
        | .char '\x7d' :: t => return (past.put name v, t)
        | .char ',' :: t => members fuel (past.put name v) (skipBlank t)
        | t => flawed .comma t
      | t => flawed .colon t
    | _ => flawed .name s

end

/-- The value that a text is. -/
def read (s : List Letter) : Except Problem Value :=
  match s with
  | .char '\uFEFF' :: _ => flawed .mark s
  | _ => do
    let (v, r) ← value (2 * s.length + 1) (skipBlank s)
    match skipBlank r with
    | [] => return v
    | t => flawed .extra t

namespace Flaw

/-- The flaw with its place in the text: line and column count from one, letters
from zero. -/
def placed (flaw : Flaw) (left : Nat) (s : List Letter) : String :=
  let position := s.length - left
  let before := s.take position
  let line := before.count (.char '\n') + 1
  let column := (before.reverse.takeWhile (· != .char '\n')).length + 1
  s!"{flaw.message}: line {line} column {column} (char {position})"

end Flaw

end Json

end Estree
