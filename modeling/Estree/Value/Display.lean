import Estree.Limit
import Estree.Number.Shortest
import Estree.Value

/-!
The text of a value: plain where it is read, quoted where it is named.  They
differ only for text and moments that stand alone.  Quoted text shows a surrogate
by its code, so it is a string.  A mapping is spelled out; for a record stands the
text that its class gives of it.
-/

namespace Estree

namespace Value

/-- The brackets of a mapping. -/
def braced (body : String) : String := "\x7b" ++ body ++ "\x7d"

mutual

def quoted : Value → String
  | .null => "None"
  | .bool b => if b then "True" else "False"
  | .int i => toString i
  | .float x => x.text
  | .text s => s.quote
  | .moment m => m.quoted
  | .list items => "[" ++ String.intercalate ", " (quotedList items) ++ "]"
  | .object .mapping fields => braced (String.intercalate ", " (quotedFields fields))
  | .object (.attributes _ said) _ => said

def quotedList : List Value → List String
  | [] => []
  | v :: rest => quoted v :: quotedList rest

def quotedFields : List (Text × Value) → List String
  | [] => []
  | (k, v) :: rest => (k.quote ++ ": " ++ quoted v) :: quotedFields rest

end

def plain : Value → Text
  | .text s => s
  | .moment m => m.plain
  | v => v.quoted

/-! ### Limits of writing -/

/-- Whether a whole number has more digits than are written. -/
def isLarge (i : Int) : Bool := Nat.pow 10 Limit.mostDigits ≤ i.natAbs

mutual

/-- What keeps a value from being written with so many levels left, if anything
does; the first place in order decides.  A record says of itself what it will. -/
def limit? : Nat → Value → Option Limit
  | 0, _ => some .deepValue
  | _ + 1, .int i => if isLarge i then some .largeNumber else none
  | levels + 1, .list items => limitOfList? levels items
  | levels + 1, .object .mapping fields => limitOfFields? levels fields
  | _ + 1, _ => none

def limitOfList? (levels : Nat) : List Value → Option Limit
  | [] => none
  | v :: rest => (limit? levels v).or (limitOfList? levels rest)

def limitOfFields? (levels : Nat) : List (Text × Value) → Option Limit
  | [] => none
  | (_, v) :: rest => (limit? levels v).or (limitOfFields? levels rest)

end

@[simp] theorem plain_text (s : Text) : plain (.text s) = s := rfl

end Value

end Estree
