import Estree.Value.Display

/-!
What can go wrong when a rule is evaluated against a node.
-/

namespace Estree

inductive Fault where
  /-- The first member is asked of a value that has no order. -/
  | notIndexable (kind : String)
  /-- A mapping is asked for a member it does not have. -/
  | noMember (key : Value)
  /-- A list or an object is given as the name of a child of a mapping. -/
  | notAKey (kind : String)
  /-- Something other than text is given as the name of a child of a record. -/
  | notAName (kind : String)
  /-- A value stands where a function is to be called. -/
  | notCallable (kind : String)
  /-- A scope is to be closed while none is open. -/
  | noScope
  /-- A function of a rule, or a consumer of a walk, fails of its own accord. -/
  | raised (kind : String) (message : Text)
  deriving Repr, Inhabited

namespace Fault

def message : Fault → Text
  | .notIndexable kind => s!"'{kind}' object is not subscriptable"
  | .noMember key => key.quoted
  | .notAKey kind => s!"unhashable type: '{kind}'"
  | .notAName kind => s!"attribute name must be string, not '{kind}'"
  | .notCallable kind => s!"'{kind}' object is not callable"
  | .noScope => "pop from empty list"
  | .raised _ message => message

end Fault

end Estree
