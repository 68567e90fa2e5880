import Estree.Text
import Estree.Text.Printable

/-!
Quoted text: the text between quotes, on one line, every character visible.
-/

namespace Estree

namespace Text

def hexDigits (width n : Nat) : String :=
  let digits := Nat.toDigits 16 n
  String.ofList (List.replicate (width - digits.length) '0' ++ digits)

/-- One character between quotes.  A character that is not printable becomes its
code, in the shortest of three widths. -/
def escapeChar (quote c : Char) : String :=
  if c = quote ∨ c = '\\' then "\\" ++ c.toString
  else if c = '\n' then "\\n"
  else if c = '\r' then "\\r"
  else if c = '\t' then "\\t"
  else if isPrintable c then c.toString
  else if c.toNat < 0x100 then "\\x" ++ hexDigits 2 c.toNat
  else if c.toNat < 0x10000 then "\\u" ++ hexDigits 4 c.toNat
  else "\\U" ++ hexDigits 8 c.toNat

/-- One letter between quotes; a surrogate is never printable. -/
def escapeLetter (quote : Char) : Letter → String
  | .char c => escapeChar quote c
  | .surrogate n => "\\u" ++ hexDigits 4 (Letter.surrogate n).code

/-- Single quotes, unless only double quotes spare an escape. -/
def quoteFor (s : List Letter) : Char := if .char '\'' ∈ s ∧ .char '"' ∉ s then '"' else '\''

def quote (s : Text) : String :=
  let mark := quoteFor s.letters
  mark.toString ++ String.join (s.letters.map (escapeLetter mark)) ++ mark.toString

end Text

end Estree
