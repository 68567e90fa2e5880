import Estree.Number.Binary64
import Estree.Moment
import Estree.Text

/-!
Data as documents and configuration files hold it.
-/

namespace Estree

/-- How an object hands over its properties.  Both styles are read alike; they
differ in truth, for an empty record is true, and in what else they allow. -/
inductive Style where
  | mapping
  /-- An object of a class of the parser's own.  The class says how messages call it and
  what text it gives of itself, of which nothing is known; it compares its objects by
  identity. -/
  | attributes (kind said : String)
  deriving DecidableEq, Repr

/-- A class that says nothing of its objects but what it is called. -/
def Style.record : Style := .attributes "Node" "<Node object>"

inductive Value where
  | null
  | bool (b : Bool)
  | int (i : Int)
  | float (x : Binary64)
  | text (s : Text)
  | moment (m : Moment)
  | list (items : List Value)
  | object (style : Style) (fields : List (Text × Value))
  deriving Repr, Inhabited

namespace Value

/-- An object in the style of a mapping. -/
abbrev mapping (fields : List (Text × Value)) : Value := .object .mapping fields

/-- Empty and zero values are false, except that a record is always true. -/
def truthy : Value → Bool
  | .null => false
  | .bool b => b
  | .int i => i != 0
  | .float x => !x.isZero
  | .text s => !s.isEmpty
  | .moment _ => true
  | .list items => !items.isEmpty
  | .object .mapping fields => !fields.isEmpty
  | .object (.attributes ..) _ => true

/-- Whole numbers; a boolean counts as one. -/
def int? : Value → Option Int
  | .bool b => some (if b then 1 else 0)
  | .int i => some i
  | _ => none

def text? : Value → Option Text
  | .text s => some s
  | _ => none

def isNull : Value → Bool
  | .null => true
  | _ => false

/-- Equality of values that hold no others.  Numbers are equal as numbers,
whatever their kind. -/
def sameScalar : Value → Value → Bool
  | .null, .null => true
  | .text s, .text t => s == t
  | .moment m, .moment n => m == n
  | .float x, .float y => x.same y
  | .float x, w => (w.int?.map x.sameInt).getD false
  | v, .float y => (v.int?.map y.sameInt).getD false
  | v, w => match v.int?, w.int? with
    | some i, some j => i == j
    | _, _ => false

def isNan : Value → Bool
  | .float .nan => true
  | _ => false

mutual

/-- Equality: members in order, properties in any order, numbers as numbers.  A
record is equal to itself alone, and what stands at two places of a tree is two
objects. -/
def same : Value → Value → Bool
  | .list xs, .list ys => sameList xs ys
  | .list _, _ => false
  | .object .mapping fs, .object .mapping gs => fs.length == gs.length && sameFields fs gs
  | .object _ _, _ => false
  | v, w => sameScalar v w

/-- Within lists and mappings NaN is taken for itself. -/
def sameList : List Value → List Value → Bool
  | [], [] => true
  | x :: xs, y :: ys => (x.isNan && y.isNan || same x y) && sameList xs ys
  | _, _ => false

/-- Every property of the first list stands with an equal value in the second. -/
def sameFields : List (Text × Value) → List (Text × Value) → Bool
  | [], _ => true
  | (k, v) :: rest, gs =>
    (match gs.lookup k with
      | some w => v.isNan && w.isNan || same v w
      | none => false) && sameFields rest gs

end

/-- The name by which messages call the kind of a value. -/
def kind : Value → String
  | .null => "NoneType"
  | .bool _ => "bool"
  | .int _ => "int"
  | .float _ => "float"
  | .text _ => "str"
  | .moment m => m.kind
  | .list _ => "list"
  | .object .mapping _ => "dict"
  | .object (.attributes kind _) _ => kind

mutual

/-- The same data with the style of every object chosen by how many objects
enclose it. -/
def styled (style : Nat → Style) (depth : Nat) : Value → Value
  | .list items => .list (styledList style depth items)
  | .object _ fields => .object (style depth) (styledFields style (depth + 1) fields)
  | .null => .null
  | .bool b => .bool b
  | .int i => .int i
  | .float x => .float x
  | .text s => .text s
  | .moment m => .moment m

def styledList (style : Nat → Style) (depth : Nat) : List Value → List Value
  | [] => []
  | v :: rest => styled style depth v :: styledList style depth rest

def styledFields (style : Nat → Style) (depth : Nat) :
    List (Text × Value) → List (Text × Value)
  | [] => []
  | (k, v) :: rest => (k, styled style depth v) :: styledFields style depth rest

end

/-- A list of values is handled as one value or as its members: nothing for null,
and a value that is not a list stands for itself. -/
def members : Value → List Value
  | .null => []
  | .list items => items
  | v => [v]

end Value

end Estree
