import Estree.Log
import Estree.Rule.Draft
import Estree.Sorting

/-!
Grammars: the rules of many node types, folded from layers.
-/

namespace Estree

/-- Drafts by node type, which may be anything that can be a key and be written. -/
structure Drafts where
  entries : Keyed Draft
  writable : ∀ row ∈ entries.pairs, row.1.limit? Limit.mostLevels = none

/-- Drafts under any keys, or why one of them cannot be written. -/
def Drafts.ofKeyed (entries : Keyed Draft) : Except Limit Drafts :=
  match h : entries.pairs.findSome? fun row => row.1.limit? Limit.mostLevels with
  | some limit => .error limit
  | none => .ok ⟨entries, List.findSome?_eq_none_iff.mp h⟩

/-- A set of drafts, under the name that the log calls it. -/
inductive Layer where
  | table (name : Text) (drafts : Drafts)
  /-- A set with no table in it. -/
  | bare (kind : String)

/-- The rules of the node types that have one. -/
structure Grammar where
  rules : Keyed Rule
  deriving Inhabited

namespace Grammar

inductive Problem where
  /-- A node type is described by something that is no table. -/
  | notATable (kind : String)
  | noTable (kind : String)
  /-- Two node types cannot be put in order. -/
  | noOrder (left right : String)
  deriving DecidableEq, Repr

namespace Problem

def message : Problem → String
  | .notATable kind => s!"'{kind}' object has no attribute 'items'"
  | .noTable kind => s!"'{kind}' object has no attribute 'SYNTAX'"
  | .noOrder left right =>
    s!"'<' not supported between instances of '{left}' and '{right}'"

end Problem

def empty : Grammar := ⟨.empty⟩

/-- The rule of a node type, if there is one. -/
def rule? (g : Grammar) (type : Text) : Option Rule := g.rules.read? (.text type)

/-- Whether there is a rule under a key of any kind. -/
def contains (g : Grammar) (key : Key) : Bool := (g.rules.read? key).isSome

/-- The rule under a key of any kind; null always has the default rule. -/
def lookupKey (g : Grammar) (key : Key) : Rule :=
  if key = .null then .default else (g.rules.read? key).getD .default

/-- The rule of a node type; a node of unknown type has the default rule, as has
one without a type. -/
def lookup (g : Grammar) (type : Option Text) : Rule := (type.bind g.rule?).getD .default

def size (g : Grammar) : Nat := g.rules.size

/-- The node types in the order in which they were first given. -/
def types (g : Grammar) : List Value := g.rules.pairs.map Prod.fst

/-- Whether a node type stands before another. -/
def before (a b : Key × Value) : Except Problem Bool :=
  match Key.less? a.1 b.1 with
  | some falls => .ok falls
  | none => .error (.noOrder a.2.kind b.2.kind)

/-- The node types in increasing order, if they have one. -/
def sortedTypes (g : Grammar) : Except Problem (List Value) := do
  return (← Sorting.sort before (g.rules.entries.map fun (k, type, _) => (k, type))).map Prod.snd

end Grammar

namespace Draft

/-- The rule that a table describes, each unknown field noted. -/
def normalize : Draft → Logged Grammar.Problem Rule
  | .rule r => pure r
  | .fields table => do
    (unknownFields table.rows).forM fun name =>
      Logged.note ("Ignoring unknown syntax field " ++ name.quoted)
    return Rule.ofFields (table.rows.filterMap named?)
  | .other kind => throw (.notATable kind)

end Draft

namespace Grammar

/-- Give a node type its rule; a later rule replaces an earlier one whole. -/
def addEntry (layer : Text) (g : Grammar) (entry : Key × (Value × Draft)) :
    Logged Problem Grammar := do
  let (key, type, draft) := entry
  if g.contains key then Logged.note (layer ++ " overrides syntax for " ++ type.plain)
  let r ← draft.normalize
  return ⟨g.rules.write key type r⟩

def addLayer (g : Grammar) : Layer → Logged Problem Grammar
  | .bare kind => throw (.noTable kind)
  | .table name drafts => do
    let g ← drafts.entries.entries.foldlM (addEntry name) g
    Logged.note ("Folded " ++ toString drafts.entries.size ++ " syntax entries from " ++ name)
    return g

/-- The grammar of layers folded in order. -/
def ofLayers (layers : List Layer) : Logged Problem Grammar := layers.foldlM addLayer empty

end Grammar

end Estree
