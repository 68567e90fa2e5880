import Estree.Node

/-!
Rules: how one node type takes part in a walk and in the measures.
-/

namespace Estree

/-- An operator or an operand that a node type declares. -/
structure Mark where
  /-- What it is called, unless `resolve` says otherwise. -/
  identifier : Entry
  /-- Its name for a given node. -/
  resolve : Entry
  /-- Whether it applies to a given node; absent, it always does. -/
  filter : Entry

namespace Mark

/-- A mark of one name for every node. -/
def tag (identifier : Entry) : Mark := ⟨identifier, .absent, .absent⟩

def appliesTo (m : Mark) (node : Value) : Except Fault Bool :=
  if m.filter.isAbsent then .ok true else return (← m.filter.call node).truthy

def resolveFor (m : Mark) (node : Value) : Except Fault Value :=
  if m.resolve.isAbsent then .ok m.identifier.shown else m.resolve.call node

/-- The names of the marks that apply, in declared order. -/
def resolveAll : List Mark → Value → Except Fault (List Value)
  | [], _ => .ok []
  | m :: rest, node => do
    if ← m.appliesTo node then
      let name ← m.resolveFor node
      let more ← resolveAll rest node
      return name :: more
    else resolveAll rest node

/-- A mark as a table may write it. -/
def toEntry (m : Mark) : Entry := .mark m.identifier m.resolve m.filter

end Mark

/-- The rule of one node type.  Nothing is checked: a count may be any value, and
a child may have a name that no node carries. -/
structure Rule where
  /-- The names of the properties to descend into, in visiting order. -/
  children : List Entry
  operators : List Mark
  operands : List Mark
  /-- Logical lines. -/
  lloc : Entry
  /-- Branches. -/
  cyclomatic : Entry
  /-- Whether the node opens a scope. -/
  newScope : Entry
  /-- A record of what the node depends on. -/
  dependencies : Entry
  /-- The name that the node assigns to. -/
  assignableName : Entry
  /-- The name of the method that the node defines. -/
  methodName : Entry

namespace Rule

/-- The rule of a type of which nothing is known: no children, and nothing to
count. -/
def default : Rule where
  children := []
  operators := []
  operands := []
  lloc := .data (.int 0)
  cyclomatic := .data (.int 0)
  newScope := .absent
  dependencies := .absent
  assignableName := .absent
  methodName := .absent

instance : Inhabited Rule := ⟨default⟩

def llocFor (r : Rule) (node : Value) : Except Fault Value := r.lloc.eval node .none

def cyclomaticFor (r : Rule) (node : Value) (flags : Flags) : Except Fault Value :=
  r.cyclomatic.eval node flags

def opensScope (r : Rule) (node : Value) : Except Fault Bool :=
  (r.newScope.eval node .none).map Value.truthy

def operatorsFor (r : Rule) (node : Value) : Except Fault (List Value) :=
  Mark.resolveAll r.operators node

def operandsFor (r : Rule) (node : Value) : Except Fault (List Value) :=
  Mark.resolveAll r.operands node

def dependencyFor (r : Rule) (node : Value) : Except Fault Value := r.dependencies.call node

def assignableNameFor (r : Rule) (node : Value) : Except Fault Value := r.assignableName.call node

def methodNameFor (r : Rule) (node : Value) : Except Fault Value := r.methodName.call node

/-- The nodes to visit below a node. -/
def childrenOf (r : Rule) (node : Value) : Except Fault (List (Slot × Value)) :=
  node.children r.children

/-- Whether a rule says no more than the default one; counts are compared as
numbers. -/
def isDefault (r : Rule) : Bool :=
  r.children.isEmpty && r.operators.isEmpty && r.operands.isEmpty
    && isZero r.lloc && isZero r.cyclomatic && r.newScope.isAbsent
    && r.dependencies.isAbsent && r.assignableName.isAbsent && r.methodName.isAbsent
where
  isZero : Entry → Bool
    | .data v => v.same (.int 0)
    | _ => false

end Rule

end Estree
