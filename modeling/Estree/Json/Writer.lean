import Estree.Value
import Estree.Number.Shortest
import Estree.Text.Quoted

/-!
Writing JSON text over many lines, in ASCII alone.
-/

namespace Estree

namespace Json

def unitText (n : Nat) : String := "\\u" ++ Text.hexDigits 4 n

/-- A character between quotes.  One that is not printable ASCII becomes its code
units. -/
def charText (c : Char) : String :=
  if c = '"' then "\\\""
  else if c = '\\' then "\\\\"
  else if c = '\n' then "\\n"
  else if c = '\r' then "\\r"
  else if c = '\t' then "\\t"
  else if c = '\x08' then "\\b"
  else if c = '\x0c' then "\\f"
  else if 0x20 ≤ c.toNat ∧ c.toNat ≤ 0x7E then c.toString
  else if c.toNat < 0x10000 then unitText c.toNat
  else
    let n := c.toNat - 0x10000
    unitText (0xD800 + n / 0x400) ++ unitText (0xDC00 + n % 0x400)

def letterText : Letter → String
  | .char c => charText c
  | l => unitText l.code

def stringText (s : Text) : String := "\"" ++ String.join (s.letters.map letterText) ++ "\""

def floatText : Binary64 → String
  | .nan => "NaN"
  | .infinite negative => if negative then "-Infinity" else "Infinity"
  | x => x.text

/-- A line break and the indentation of a level. -/
def newline (level : Nat) : String := "\n" ++ String.ofList (List.replicate (2 * level) ' ')

/-- Parts between brackets, each on a line of its own. -/
def block (left right : String) (level : Nat) (parts : List String) : String :=
  if parts.isEmpty then left ++ right
  else left ++ newline (level + 1) ++ String.intercalate ("," ++ newline (level + 1)) parts
    ++ newline level ++ right

mutual

def pretty (level : Nat) : Value → String
  | .null => "null"
  | .bool b => if b then "true" else "false"
  | .int i => toString i
  | .float x => floatText x
  | .text s => stringText s
  | .moment m => stringText m.plain
  | .list items => block "[" "]" level (prettyItems (level + 1) items)
  | .object _ fields => block "\x7b" "\x7d" level (prettyFields (level + 1) fields)

def prettyItems (level : Nat) : List Value → List String
  | [] => []
  | v :: rest => pretty level v :: prettyItems level rest

def prettyFields (level : Nat) : List (Text × Value) → List String
  | [] => []
  | (k, v) :: rest => (stringText k ++ ": " ++ pretty level v) :: prettyFields level rest

end

/-- The text of a value, each level indented by two. -/
def write (v : Value) : String := pretty 0 v

end Json

end Estree
