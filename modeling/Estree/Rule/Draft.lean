import Estree.Rule

/-!
Rules as tables write them: only the fields that differ from the default, with
shorthand for single children and marks.
-/

namespace Estree

namespace Mark

/-- A mapping describes a mark if it says what the mark is called. -/
def ofFields? (fields : List (Text × Entry)) : Option Mark :=
  let field (name : Text) := fields.lookup name
  if (field "identifier").isSome || (field "resolve").isSome then
    some {
      identifier := (field "identifier").getD .absent
      resolve := (field "resolve").getD .absent
      filter := (field "filter").getD .absent }
  else none

/-- The mark that an entry stands for: a description of one, a function that
names it, or its name. -/
def ofEntry (e : Entry) : Mark :=
  match e with
  | .mark identifier resolve filter => ⟨identifier, resolve, filter⟩
  | .computed f => ⟨.absent, .computed f, .absent⟩
  | e => (e.fields?.bind ofFields?).getD (.tag e)

@[simp] theorem ofEntry_toEntry (m : Mark) : ofEntry m.toEntry = m := rfl

end Mark

namespace Rule

inductive Field where
  | children
  | operators
  | operands
  | lloc
  | cyclomatic
  | newScope
  | dependencies
  | assignableName
  | methodName
  deriving DecidableEq, Repr

namespace Field

/-- The names by which a table may call a field; three fields have two. -/
def names : List (Text × Field) := [
  ("children", .children),
  ("operators", .operators),
  ("operands", .operands),
  ("lloc", .lloc),
  ("cyclomatic", .cyclomatic),
  ("new_scope", .newScope),
  ("newScope", .newScope),
  ("dependencies", .dependencies),
  ("assignable_name", .assignableName),
  ("assignableName", .assignableName),
  ("method_name", .methodName),
  ("methodName", .methodName)]

def ofName? (name : Text) : Option Field := names.lookup name

end Field

/-- The rule with a field as a table gives it. -/
def set (r : Rule) (f : Field) (e : Entry) : Rule :=
  match f with
  | .children => { r with children := e.members }
  | .operators => { r with operators := e.members.map Mark.ofEntry }
  | .operands => { r with operands := e.members.map Mark.ofEntry }
  | .lloc => { r with lloc := e }
  | .cyclomatic => { r with cyclomatic := e }
  | .newScope => { r with newScope := e }
  | .dependencies => { r with dependencies := e }
  | .assignableName => { r with assignableName := e }
  | .methodName => { r with methodName := e }

/-- The rule with the named field set; a name that is no field changes nothing. -/
def setNamed (r : Rule) (field : Text × Entry) : Rule :=
  match Field.ofName? field.1 with
  | some f => r.set f field.2
  | none => r

/-- The last entry that a table has for a field, under any of its names. -/
def override? (fields : List (Text × Entry)) (f : Field) : Option Entry :=
  (fields.reverse.find? fun field => Field.ofName? field.1 == some f).map Prod.snd

/-- What a table holds under a name. -/
def entryAt (fields : List (Text × Entry)) (name : Text) : Entry :=
  (fields.reverse.lookup name).getD .absent

/-- The rule that a table describes.  The table is gone through for the fields that it sets,
of two spellings the later one; the fields that are lists are then read again, under their
own names. -/
def ofFields (fields : List (Text × Entry)) : Rule where
  children := (entryAt fields "children").members
  operators := (entryAt fields "operators").members.map Mark.ofEntry
  operands := (entryAt fields "operands").members.map Mark.ofEntry
  lloc := (override? fields .lloc).getD default.lloc
  cyclomatic := (override? fields .cyclomatic).getD default.cyclomatic
  newScope := (override? fields .newScope).getD default.newScope
  dependencies := (override? fields .dependencies).getD default.dependencies
  assignableName := (override? fields .assignableName).getD default.assignableName
  methodName := (override? fields .methodName).getD default.methodName

/-- The rule as a table that names every field. -/
def toFields (r : Rule) : List (Text × Entry) :=
  [("children", .list r.children),
   ("operators", .list (r.operators.map Mark.toEntry)),
   ("operands", .list (r.operands.map Mark.toEntry)),
   ("lloc", r.lloc),
   ("cyclomatic", r.cyclomatic),
   ("new_scope", r.newScope),
   ("dependencies", r.dependencies),
   ("assignable_name", r.assignableName),
   ("method_name", r.methodName)]

/-- The rule as a field of another table. -/
def toEntry (r : Rule) : Entry :=
  .rule r.children (r.operators.map Mark.toEntry) (r.operands.map Mark.toEntry)
    (r.toFields.drop 3)

end Rule

/-- A description of a rule: entries under names, which may be anything that can be
written. -/
structure Description where
  rows : List (Value × Entry)
  writable : ∀ row ∈ rows, row.1.limit? Limit.mostLevels = none

namespace Description

/-- A description under names that are text. -/
def ofFields (fields : List (Text × Entry)) : Description where
  rows := fields.map fun field => (.text field.1, field.2)
  writable := by
    intro row hrow
    obtain ⟨field, -, rfl⟩ := List.mem_map.mp hrow
    rfl

/-- A description under any names, or why one of them cannot be written. -/
def ofRows (rows : List (Value × Entry)) : Except Limit Description :=
  match h : rows.findSome? fun row => row.1.limit? Limit.mostLevels with
  | some limit => .error limit
  | none => .ok ⟨rows, List.findSome?_eq_none_iff.mp h⟩

end Description

/-- What a table holds for a node type. -/
inductive Draft where
  /-- A description that leaves out what it does not change. -/
  | fields (table : Description)
  /-- A rule that is already complete. -/
  | rule (r : Rule)
  /-- Something that describes no rule. -/
  | other (kind : String)

namespace Draft

/-- The field with its name, if the name is text. -/
def named? (field : Value × Entry) : Option (Text × Entry) :=
  field.1.text?.map fun name => (name, field.2)

/-- The names in a table that are no fields, in order. -/
def unknownFields (fields : List (Value × Entry)) : List Value :=
  (fields.map Prod.fst).filter fun name => (name.text?.bind Rule.Field.ofName?).isNone

end Draft

end Estree
