import Estree.Grammar.Standard

/-!
What one node contributes to the measures, under a grammar and settings.
-/

namespace Estree

structure Contribution where
  type : Option Text
  /-- The line the node starts on, null if the tree does not say. -/
  line : Value
  lloc : Value
  cyclomatic : Value
  operators : List Value
  operands : List Value
  opensScope : Bool
  /-- The record of a dependency, or null. -/
  dependency : Value
  assignableName : Value
  methodName : Value
  deriving Repr

namespace Contribution

/-- The contribution of a node.  The fields are worked out in the order in which
they stand, and the first fault ends the work. -/
def of (g : Grammar) (flags : Flags) (node : Value) : Except Fault Contribution := do
  let rule := g.lookup node.type?
  let lloc ← rule.llocFor node
  let cyclomatic ← rule.cyclomaticFor node flags
  let operators ← rule.operatorsFor node
  let operands ← rule.operandsFor node
  let opensScope ← rule.opensScope node
  let dependency ← rule.dependencyFor node
  let assignableName ← rule.assignableNameFor node
  let methodName ← rule.methodNameFor node
  return {
    type := node.type?
    line := node.line
    lloc, cyclomatic, operators, operands, opensScope, dependency, assignableName, methodName }

/-- The contribution of a node by the grammar that is given, or else by the standard one. -/
def under (given : Option Grammar) (flags : Flags) (node : Value) : Except Fault Contribution :=
  of (.chosen given) flags node

@[simp] theorem under_some (g : Grammar) (flags : Flags) (node : Value) :
    under (some g) flags node = of g flags node := rfl

end Contribution

end Estree
