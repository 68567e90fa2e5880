import Estree.Text.Quoted

/-!
The limits of what is read, written and named, and what is said of input beyond
them.  None of this is a judgement on a document: it ends the work wherever it
comes up.
-/

namespace Estree

inductive Limit where
  /-- A whole number that is to be read has so many digits. -/
  | longNumber (digits : Nat)
  /-- A whole number that is to be written has too many digits. -/
  | largeNumber
  /-- A value that is to be written is nested too deeply. -/
  | deepValue
  /-- A path is too long, or a name in it. -/
  | longPath (path : Text)
  /-- A path leads through a directory that must not be searched. -/
  | deniedPath (path : Text)
  /-- A path holds the null character. -/
  | nullInPath
  /-- A path holds surrogates that stand for no byte, from one place up to another. -/
  | surrogateInPath (first stop : Nat) (letter : Letter)
  /-- A failure that is to be put into words has something else in their place. -/
  | wordless (kind : String)
  deriving DecidableEq, Repr

namespace Limit

/-- The most decimal digits of a whole number. -/
def mostDigits : Nat := 4300

/-- The most levels of a value that is written. -/
def mostLevels : Nat := 990

def digitsMessage : String :=
  s!"Exceeds the limit ({mostDigits} digits) for integer string conversion"

def digitsAdvice : String := "use sys.set_int_max_str_digits() to increase the limit"

def message : Limit → String
  | .longNumber digits => s!"{digitsMessage}: value has {digits} digits; {digitsAdvice}"
  | .largeNumber => s!"{digitsMessage}; {digitsAdvice}"
  | .deepValue => "maximum recursion depth exceeded while getting the repr of an object"
  | .longPath path => "[Errno 36] File name too long: " ++ path.quote
  | .deniedPath path => "[Errno 13] Permission denied: " ++ path.quote
  | .nullInPath => "embedded null byte"
  | .surrogateInPath first stop letter =>
    "'utf-8' codec can't encode " ++
      (if stop ≤ first + 1 then s!"character {quoted letter} in position {first}"
        else s!"characters in position {first}-{stop - 1}")
      ++ ": surrogates not allowed"
  | .wordless kind => s!"__str__ returned non-string (type {kind})"
where
  quoted (letter : Letter) : String := Text.quote ⟨[letter]⟩

/-- The limit as one of a path under another name. -/
def named (path : Text) : Limit → Limit
  | .longPath _ => .longPath path
  | .deniedPath _ => .deniedPath path
  | limit => limit

end Limit

end Estree
