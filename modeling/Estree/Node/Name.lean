import Estree.Node
import Estree.Value.Display

/-!
Names of nodes, for labels of scopes and assignments: identifiers, literals and
member chains, joined by dots.
-/

namespace Estree

namespace Value

def anonymous : Value := .text "<anonymous>"

/-- The name of a node that is not a member expression, else the default.  An
identifier gives its `name` as it stands, which need not be text. -/
def leafName (v default : Value) : Value :=
  if v.isA "Identifier" then
    if (v.prop "name").truthy then v.prop "name" else default
  else if v.isA "PrivateIdentifier" then
    if (v.prop "name").truthy then .text ("#" ++ (v.prop "name").plain) else default
  else if v.isA "Literal" then
    if (v.prop "value").isNull then default else .text (v.prop "value").plain
  else if v.isA "ThisExpression" then .text "this"
  else default

/-- The name of a node.  A member expression is its object and its property with
a dot between, whatever the two are. -/
def name (v default : Value) : Value :=
  if _h : v.isA "MemberExpression" then
    .text (((v.prop "object").name default).plain ++ "." ++
      ((v.prop "property").name default).plain)
  else v.leafName default
termination_by sizeOf v
decreasing_by
  all_goals exact sizeOf_prop_lt (isNode_of_isA _h) _

end Value

end Estree
