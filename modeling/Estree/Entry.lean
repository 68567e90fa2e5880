import Estree.Key

/-!
What a table of rules may write for a field: data, functions of nodes, and rules
or parts of rules that are complete already.
-/

namespace Estree

/-- The settings as a rule sees them; a setting that is not there is null. -/
abbrev Flags := Text → Value

/-- No settings at all. -/
def Flags.none : Flags := fun _ => .null

/-- A function in a rule.  Only branch counts are handed the settings. -/
abbrev NodeFn := Value → Flags → Except Fault Value

inductive Entry where
  | data (v : Value)
  | computed (f : NodeFn)
  /-- An operator or operand: what it is called, unless `resolve` says otherwise,
  and to which nodes it applies. -/
  | mark (identifier resolve filter : Entry)
  /-- The fields of a rule; the three that are lists stand first. -/
  | rule (children operators operands : List Entry) (fields : List (Text × Entry))
  | list (items : List Entry)
  | mapping (fields : List (Text × Entry))

namespace Entry

/-- The field that is not there. -/
def absent : Entry := .data .null

instance : Inhabited Entry := ⟨absent⟩

def isAbsent : Entry → Bool
  | .data v => v.isNull
  | _ => false

mutual

/-- An entry as data.  A function is shown as such, a mark or a rule as its parts. -/
def shown : Entry → Value
  | .data v => v
  | .computed _ => .text "<computed>"
  | .mark identifier resolve filter =>
    .mapping [("identifier", shown identifier), ("resolve", shown resolve),
      ("filter", shown filter)]
  | .rule children operators operands fields =>
    .mapping (("children", .list (shownList children))
      :: ("operators", .list (shownList operators))
      :: ("operands", .list (shownList operands)) :: shownFields fields)
  | .list items => .list (shownList items)
  | .mapping fields => .mapping (shownFields fields)

def shownList : List Entry → List Value
  | [] => []
  | e :: rest => shown e :: shownList rest

def shownFields : List (Text × Entry) → List (Text × Value)
  | [] => []
  | (k, e) :: rest => (k, shown e) :: shownFields rest

end

/-- The name by which messages call the kind of an entry. -/
def kind : Entry → String
  | .data v => v.kind
  | .computed _ => "function"
  | .mark .. => "IdentifierRecord"
  | .rule .. => "SyntaxSpec"
  | .list _ => "list"
  | .mapping _ => "dict"

mutual

/-- Check that an entry can be a key; a mark or a rule can if all its parts can. -/
def checkKey : Entry → Except Fault Unit
  | .data v => (Key.of v).map fun _ => ()
  | .computed _ => .ok ()
  | .mark identifier resolve filter => do
    checkKey identifier
    checkKey resolve
    checkKey filter
  | .rule children operators operands fields => do
    checkKeys children
    checkKeys operators
    checkKeys operands
    checkFields fields
  | .list items => .error (.notAKey (Entry.list items).kind)
  | .mapping fields => .error (.notAKey (Entry.mapping fields).kind)

def checkKeys : List Entry → Except Fault Unit
  | [] => .ok ()
  | e :: rest => do
    checkKey e
    checkKeys rest

def checkFields : List (Text × Entry) → Except Fault Unit
  | [] => .ok ()
  | (_, e) :: rest => do
    checkKey e
    checkFields rest

end

/-- The value of a field for a node: a function is called, anything else stands. -/
def eval (e : Entry) (node : Value) (flags : Flags) : Except Fault Value :=
  match e with
  | .computed f => f node flags
  | e => .ok e.shown

/-- The answer of a field that can only be a function: null if it is absent, and
a fault if anything else stands there. -/
def call (e : Entry) (node : Value) : Except Fault Value :=
  match e with
  | .data .null => .ok .null
  | .computed f => f node .none
  | e => .error (.notCallable e.kind)

/-- One entry or a list of them: nothing for null, and an entry that is not a
list stands for itself. -/
def members : Entry → List Entry
  | .data v => v.members.map .data
  | .list items => items
  | e => [e]

/-- The fields of an entry that is a mapping. -/
def fields? : Entry → Option (List (Text × Entry))
  | .mapping fields => some fields
  | .data (.object .mapping fields) => some (fields.map fun (k, v) => (k, .data v))
  | _ => none

end Entry

end Estree
