import Estree.Grammar.Base

/-!
The node types that later editions add, and the grammar of all editions.
-/

namespace Estree

namespace Grammar

/-! ### ES2015

Loops over iterables, classes, arrows, modules, templates and patterns.  The
setting `forof` counts a loop over an iterable as a branch. -/

/-- An import depends on the value of its source, whatever that is. -/
def importDependency (node : Value) : Value :=
  dependency node "Module" (node.follow ["source", "value"])

/-- The two names of a specifier differ. -/
def renames (first second : Text) (node : Value) : Bool :=
  !((node.prop first).name Value.anonymous).same ((node.prop second).name Value.anonymous)

def metaOperand (node : Value) : Value :=
  .text ((node.follow ["meta", "name"]).plain ++ "." ++ (node.follow ["property", "name"]).plain)

def yieldOperator (node : Value) : Value :=
  .text (if (node.prop "delegate").truthy then "yield*" else "yield")

def es2015Table : List (Text × List (Text × Entry)) := [
  nodeType "ArrayPattern" [("operators", word "[]"), ("children", names ["elements"])],
  nodeType "ArrowFunctionExpression" [
    ("operators", word "=>"),
    ("children", names ["params", "body"]),
    ("new_scope", .data (.bool true))],
  nodeType "AssignmentPattern" [
    ("operators", word "="),
    ("children", names ["left", "right"]),
    ("assignable_name", nameOf "left")],
  nodeType "ClassBody" [("children", names ["body"])],
  nodeType "ClassDeclaration" [
    ("lloc", count 1),
    ("operators", word "class"),
    ("operands", fromNode ownName),
    ("children", names ["superClass", "body"])],
  nodeType "ClassExpression" [
    ("operators", word "class"),
    ("operands", ownNameIfAny),
    ("children", names ["superClass", "body"])],
  nodeType "ExportAllDeclaration" [
    ("lloc", count 1), ("operators", word "export"), ("children", names ["source"])],
  nodeType "ExportDefaultDeclaration" [
    ("lloc", count 1), ("operators", word "export"), ("children", names ["declaration"])],
  nodeType "ExportNamedDeclaration" [
    ("lloc", count 1),
    ("operators", word "export"),
    ("children", names ["declaration", "specifiers", "source"])],
  nodeType "ExportSpecifier" [
    ("operators", markIf "as" (renames "local" "exported")),
    ("children", names ["local", "exported"])],
  nodeType "ForOfStatement" [
    ("lloc", count 1),
    ("cyclomatic", flagBranch "forof"),
    ("operators", word "forof"),
    ("children", names ["left", "right", "body"])],
  nodeType "ImportDeclaration" [
    ("lloc", count 1),
    ("operators", word "import"),
    ("children", names ["specifiers", "source"]),
    ("dependencies", fromNode importDependency)],
  nodeType "ImportDefaultSpecifier" [("children", names ["local"])],
  nodeType "ImportNamespaceSpecifier" [("operators", word "* as"), ("children", names ["local"])],
  nodeType "ImportSpecifier" [
    ("operators", markIf "as" (renames "imported" "local")),
    ("children", names ["imported", "local"])],
  nodeType "MetaProperty" [("operands", fromNode metaOperand)],
  nodeType "MethodDefinition" [("children", names ["value"]), ("method_name", nameOf "key")],
  nodeType "ObjectPattern" [("operators", word "\x7b\x7d"), ("children", names ["properties"])],
  nodeType "RestElement" [("operators", word "..."), ("children", names ["argument"])],
  nodeType "SpreadElement" [("operators", word "..."), ("children", names ["argument"])],
  nodeType "Super" [("operands", word "super")],
  nodeType "TaggedTemplateExpression" [
    ("operators", word "``"), ("children", names ["tag", "quasi"])],
  nodeType "TemplateElement" [("operands", fromNode fun node => node.follow ["value", "cooked"])],
  nodeType "TemplateLiteral" [
    ("operators", word "``"), ("children", names ["quasis", "expressions"])],
  nodeType "YieldExpression" [
    ("operators", fromNode yieldOperator), ("children", names ["argument"])]]

/-! ### ES2017

Async functions are functions with a mark on the node, so only `await` has a type
of its own. -/

def es2017Table : List (Text × List (Text × Entry)) := [
  nodeType "AwaitExpression" [("operators", word "await"), ("children", names ["argument"])]]

/-! ### ES2020

Optional members and calls keep their types; a chain of them is wrapped whole. -/

/-- A dynamic import depends on its source if that is written out. -/
def dynamicImportDependency (node : Value) : Value :=
  let source := node.prop "source"
  if source.isA "Literal" && (source.prop "value").text?.isSome then
    dependency node "Module" (source.prop "value")
  else .null

def es2020Table : List (Text × List (Text × Entry)) := [
  nodeType "ChainExpression" [("operators", word "?."), ("children", names ["expression"])],
  nodeType "ImportExpression" [
    ("operators", word "import()"),
    ("children", names ["source"]),
    ("dependencies", fromNode dynamicImportDependency)]]

/-! ### ES2022

Class fields, private names and static blocks.  The value of a field is walked
like any other; a static block opens no scope. -/

def privateOperand (node : Value) : Value := .text ("#" ++ (node.prop "name").plain)

def es2022Table : List (Text × List (Text × Entry)) := [
  nodeType "PrivateIdentifier" [("operands", fromNode privateOperand)],
  nodeType "PropertyDefinition" [
    ("lloc", count 1),
    ("operators", markIf "=" (hasProp "value")),
    ("children", names ["key", "value"]),
    ("assignable_name", nameOf "key")],
  nodeType "StaticBlock" [
    ("lloc", count 1), ("operators", word "static"), ("children", names ["body"])]]

/-- The editions that add node types, oldest first. -/
inductive Edition where
  | es5
  | es2015
  | es2017
  | es2020
  | es2022
  deriving DecidableEq, Repr

namespace Edition

def all : List Edition := [.es5, .es2015, .es2017, .es2020, .es2022]

def label : Edition → Text
  | .es5 => "es5"
  | .es2015 => "es2015"
  | .es2017 => "es2017"
  | .es2020 => "es2020"
  | .es2022 => "es2022"

def ofLabel? (s : Text) : Option Edition := all.find? fun e => e.label == s

def table : Edition → List (Text × List (Text × Entry))
  | .es5 => baseTable
  | .es2015 => es2015Table
  | .es2017 => es2017Table
  | .es2020 => es2020Table
  | .es2022 => es2022Table

/-- A table under names, in which every name stands once. -/
def keyed {β : Type} (table : List (Text × β)) : Keyed β :=
  .ofList (table.map fun (name, v) => (.text name, (.text name, v)))

/-- The drafts of an edition. -/
def drafts (e : Edition) : Drafts where
  entries := keyed (e.table.map fun (type, fields) => (type, .fields (.ofFields fields)))
  writable := by
    intro row hrow
    obtain ⟨e, he, rfl⟩ := List.mem_map.mp hrow
    obtain ⟨_, -, rfl⟩ := List.mem_map.mp (Dict.mem_ofList he)
    rfl

def layer (e : Edition) : Layer := .table ("estree_metrics.syntax." ++ e.label) e.drafts

end Edition

/-- The grammar of every edition.  Its tables are complete, so it is also what
folding the layers gives. -/
def standard : Grammar :=
  ⟨Edition.keyed ((Edition.all.flatMap Edition.table).map fun (type, fields) =>
    (type, Rule.ofFields fields))⟩

/-- The grammar to go by: the one that is given, even if it is empty, and the standard one
if none is. -/
def chosen (given : Option Grammar) : Grammar := given.getD standard

@[simp] theorem chosen_none : chosen none = standard := rfl

@[simp] theorem chosen_some (g : Grammar) : chosen (some g) = g := rfl

end Grammar

end Estree
