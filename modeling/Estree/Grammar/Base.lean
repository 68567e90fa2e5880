import Estree.Grammar
import Estree.Node.Name

/-!
The ES5 node types.  Settings read here: `logicalor`, `switchcase`, `forin` and
`trycatch`, each counting one kind of branch.
-/

namespace Estree

namespace Grammar

/-! ### Writing tables -/

/-- A field worked out from the node alone. -/
def fromNode (f : Value → Value) : Entry := .computed fun node _ => .ok (f node)

/-- A field worked out from the node and the settings. -/
def fromNodeAndFlags (f : Value → Flags → Value) : Entry :=
  .computed fun node flags => .ok (f node flags)

def word (s : Text) : Entry := .data (.text s)

def count (n : Int) : Entry := .data (.int n)

/-- The names of child properties. -/
def names (ss : List Text) : Entry := .list (ss.map word)

/-- One or nothing. -/
def oneIf (b : Bool) : Value := .int (if b then 1 else 0)

/-- A mark that applies to some nodes only. -/
def markIf (identifier : Text) (applies : Value → Bool) : Entry :=
  .mapping [("identifier", word identifier), ("filter", fromNode fun node => .bool (applies node))]

/-- A property that is there and not null. -/
def hasProp (name : Text) (node : Value) : Bool := !(node.prop name).isNull

/-- One for a node with a true property. -/
def oneIfProp (name : Text) (node : Value) : Value := oneIf (node.prop name).truthy

/-- The name of the node in a property. -/
def nameOf (name : Text) : Entry := fromNode fun node => (node.prop name).name Value.anonymous

def ownName (node : Value) : Value := node.follow ["id", "name"]

/-- The record of a dependency. -/
def dependency (node : Value) (type : Text) (path : Value) : Value :=
  .mapping [("line", node.line), ("type", .text type), ("path", path)]

/-- The draft of a node type. -/
def nodeType (name : Text) (fields : List (Text × Entry)) : Text × List (Text × Entry) :=
  (name, fields)

/-! ### ES5 -/

def isText (v : Value) (s : Text) : Bool :=
  match v with
  | .text t => t == s
  | _ => false

def operatorProp : Entry := fromNode fun node => node.prop "operator"

/-- Unary and update operators are told apart by the side they stand on. -/
def fixOperator (node : Value) : Value :=
  let side := if (node.prop "prefix").truthy then "pre" else "post"
  .text ((node.prop "operator").plain ++ " (" ++ side ++ "fix)")

/-- Text stands in quotes, a regular expression as it was written. -/
def literalOperand (node : Value) : Value :=
  match node.prop "value" with
  | .text s => .text ("\"" ++ s ++ "\"")
  | value => if hasProp "regex" node then node.prop "raw" else value

/-- `&&` always branches, `||` if the settings say so. -/
def logicalBranches (node : Value) (flags : Flags) : Value :=
  let operator := node.prop "operator"
  oneIf (isText operator "&&" || (isText operator "||" && (flags "logicalor").truthy))

/-- One for an immediately called function. -/
def inlineCall (node : Value) : Value :=
  oneIf ((node.prop "callee").isA "FunctionExpression")

def inlineConstructs : List Text := ["ObjectExpression", "ArrayExpression", "FunctionExpression"]

/-- One for a property taken of something written on the spot. -/
def inlineObject (node : Value) : Value :=
  oneIf (((node.prop "object").type?.map inlineConstructs.contains).getD false)

/-- The first of the arguments of a call: null if there are none. -/
def firstArgument (arguments : Value) : Except Fault Value :=
  if arguments.truthy then
    match arguments with
    | .list items => .ok (items.head?.getD .null)
    | .text s => .ok (.text ⟨s.letters.take 1⟩)
    | .object .mapping _ => .error (.noMember (.int 0))
    | v => .error (.notIndexable v.kind)
  else .ok .null

/-- A call of `require` depends on the path in its first argument. -/
def requireDependency (node : Value) : Except Fault Value := do
  let callee := node.prop "callee"
  if callee.isA "Identifier" && isText (callee.prop "name") "require" then
    let first ← firstArgument (node.prop "arguments")
    let known := first.isA "Literal" && (first.prop "value").text?.isSome
    return dependency node "CommonJS"
      (if known then first.prop "value" else .text "* dynamic dependency *")
  else return .null

def ifLines (node : Value) : Value := .int (if (node.prop "alternate").truthy then 2 else 1)

def flagBranch (flag : Text) : Entry := fromNodeAndFlags fun _ flags => oneIf (flags flag).truthy

def caseBranches (node : Value) (flags : Flags) : Value :=
  oneIf ((flags "switchcase").truthy && (node.prop "test").truthy)

def caseOperator (node : Value) : Value :=
  .text (if (node.prop "test").truthy then "case" else "default")

/-- A function expression is named only if it has a name of its own. -/
def ownNameIfAny : Entry :=
  .mapping [
    ("resolve", fromNode ownName),
    ("filter", fromNode fun node => .bool (hasProp "id" node))]

/-- The body of a labelled statement is not walked: its type declares no
children. -/
def baseTable : List (Text × List (Text × Entry)) := [
  nodeType "ArrayExpression" [("operators", word "[]"), ("children", names ["elements"])],
  nodeType "AssignmentExpression" [
    ("operators", operatorProp),
    ("children", names ["left", "right"]),
    ("assignable_name", nameOf "left")],
  nodeType "BinaryExpression" [("operators", operatorProp), ("children", names ["left", "right"])],
  nodeType "BlockStatement" [("children", names ["body"])],
  nodeType "BreakStatement" [
    ("lloc", count 1), ("operators", word "break"), ("children", names ["label"])],
  nodeType "CallExpression" [
    ("lloc", fromNode inlineCall),
    ("operators", word "()"),
    ("children", names ["callee", "arguments"]),
    ("dependencies", .computed fun node _ => requireDependency node)],
  nodeType "CatchClause" [
    ("lloc", count 1),
    ("cyclomatic", flagBranch "trycatch"),
    ("operators", word "catch"),
    ("children", names ["param", "body"])],
  nodeType "ConditionalExpression" [
    ("cyclomatic", count 1),
    ("operators", word ":?"),
    ("children", names ["test", "consequent", "alternate"])],
  nodeType "ContinueStatement" [
    ("lloc", count 1), ("operators", word "continue"), ("children", names ["label"])],
  nodeType "DebuggerStatement" [("lloc", count 1), ("operators", word "debugger")],
  nodeType "DoWhileStatement" [
    ("lloc", count 2),
    ("cyclomatic", fromNode (oneIfProp "test")),
    ("operators", word "dowhile"),
    ("children", names ["body", "test"])],
  nodeType "EmptyStatement" [],
  nodeType "ExpressionStatement" [("lloc", count 1), ("children", names ["expression"])],
  nodeType "ForInStatement" [
    ("lloc", count 1),
    ("cyclomatic", flagBranch "forin"),
    ("operators", word "forin"),
    ("children", names ["left", "right", "body"])],
  nodeType "ForStatement" [
    ("lloc", count 1),
    ("cyclomatic", fromNode (oneIfProp "test")),
    ("operators", word "for"),
    ("children", names ["init", "test", "update", "body"])],
  nodeType "FunctionDeclaration" [
    ("lloc", count 1),
    ("operators", word "function"),
    ("operands", fromNode ownName),
    ("children", names ["params", "body"]),
    ("new_scope", .data (.bool true))],
  nodeType "FunctionExpression" [
    ("operators", word "function"),
    ("operands", ownNameIfAny),
    ("children", names ["params", "body"]),
    ("new_scope", .data (.bool true))],
  nodeType "Identifier" [("operands", fromNode fun node => node.prop "name")],
  nodeType "IfStatement" [
    ("lloc", fromNode ifLines),
    ("cyclomatic", count 1),
    ("operators", .list [word "if", markIf "else" (hasProp "alternate")]),
    ("children", names ["test", "consequent", "alternate"])],
  nodeType "LabeledStatement" [],
  nodeType "Literal" [("operands", fromNode literalOperand)],
  nodeType "LogicalExpression" [
    ("cyclomatic", fromNodeAndFlags logicalBranches),
    ("operators", operatorProp),
    ("children", names ["left", "right"])],
  nodeType "MemberExpression" [
    ("lloc", fromNode inlineObject),
    ("operators", word "."),
    ("children", names ["object", "property"])],
  nodeType "NewExpression" [
    ("lloc", fromNode inlineCall),
    ("operators", word "new"),
    ("children", names ["callee", "arguments"])],
  nodeType "ObjectExpression" [("operators", word "\x7b\x7d"), ("children", names ["properties"])],
  nodeType "Property" [
    ("lloc", count 1),
    ("operators", word ":"),
    ("children", names ["key", "value"]),
    ("assignable_name", nameOf "key")],
  nodeType "ReturnStatement" [
    ("lloc", count 1), ("operators", word "return"), ("children", names ["argument"])],
  nodeType "SequenceExpression" [("operators", word ","), ("children", names ["expressions"])],
  nodeType "SwitchCase" [
    ("lloc", count 1),
    ("cyclomatic", fromNodeAndFlags caseBranches),
    ("operators", fromNode caseOperator),
    ("children", names ["test", "consequent"])],
  nodeType "SwitchStatement" [
    ("lloc", count 1),
    ("operators", word "switch"),
    ("children", names ["discriminant", "cases"])],
  nodeType "ThisExpression" [("operands", word "this")],
  nodeType "ThrowStatement" [
    ("lloc", count 1), ("operators", word "throw"), ("children", names ["argument"])],
  nodeType "TryStatement" [
    ("lloc", count 1),
    ("operators", word "try"),
    ("children", names ["block", "handler", "finalizer"])],
  nodeType "UnaryExpression" [
    ("operators", fromNode fixOperator), ("children", names ["argument"])],
  nodeType "UpdateExpression" [
    ("operators", fromNode fixOperator), ("children", names ["argument"])],
  nodeType "VariableDeclaration" [
    ("operators", fromNode fun node => node.prop "kind"), ("children", names ["declarations"])],
  nodeType "VariableDeclarator" [
    ("lloc", count 1),
    ("operators", markIf "=" (hasProp "init")),
    ("children", names ["id", "init"]),
    ("assignable_name", nameOf "id")],
  nodeType "WhileStatement" [
    ("lloc", count 1),
    ("cyclomatic", fromNode (oneIfProp "test")),
    ("operators", word "while"),
    ("children", names ["test", "body"])],
  nodeType "WithStatement" [
    ("lloc", count 1), ("operators", word "with"), ("children", names ["object", "body"])]]

end Grammar

end Estree
