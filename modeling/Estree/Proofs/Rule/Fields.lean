import Estree.Proofs.Dict
import Estree.Rule.Draft

/-!
The fields of a rule, as tables give them.

A table is read twice: for the fields that it sets, under whatever name, and again for the
three fields that are lists, under their own names.  The two readings agree, and the rule is
what comes of setting one field after another: `ofFields_eq_foldl`.  So what the default
rule has and every setting keeps, the rule of a table has: `ofFields_keeps`.
-/

namespace Estree

namespace Rule

namespace Field

def all : List Field := [.children, .operators, .operands, .lloc, .cyclomatic, .newScope,
  .dependencies, .assignableName, .methodName]

/-- The name under which a rule is written out. -/
def name : Field → Text
  | .children => "children"
  | .operators => "operators"
  | .operands => "operands"
  | .lloc => "lloc"
  | .cyclomatic => "cyclomatic"
  | .newScope => "new_scope"
  | .dependencies => "dependencies"
  | .assignableName => "assignable_name"
  | .methodName => "method_name"

/-- The second name that three of the fields have. -/
def otherName? : Field → Option Text
  | .newScope => some "newScope"
  | .assignableName => some "assignableName"
  | .methodName => some "methodName"
  | _ => none

theorem ofName?_eq_some {s : Text} {f : Field} :
    ofName? s = some f ↔ s = f.name ∨ f.otherName? = some s := by
  constructor
  · intro h
    have hall : ∀ e ∈ names, e.1 = e.2.name ∨ e.2.otherName? = some e.1 := by decide
    exact hall (s, f) (Entries.mem_of_lookup h)
  · rintro (rfl | h)
    · cases f <;> rfl
    · cases f <;> cases h <;> rfl

/-- A field with one name is set under that name alone. -/
theorem ofName?_eq_some_of_single {f : Field} (h : f.otherName? = none) {s : Text} :
    ofName? s = some f ↔ s = f.name := by
  rw [ofName?_eq_some, h]
  exact or_iff_left (Option.some_ne_none s).symm

end Field

theorem override?_concat (fields : List (Text × Entry)) (field : Text × Entry) (f : Field) :
    override? (fields ++ [field]) f =
      if Field.ofName? field.1 = some f then some field.2 else override? fields f := by
  rw [override?, List.reverse_append, List.reverse_singleton, List.singleton_append,
    List.find?_cons]
  by_cases h : Field.ofName? field.1 = some f
  · rw [beq_iff_eq.mpr h, if_pos h]
    rfl
  · rw [beq_false_of_ne h, if_neg h]
    rfl

/-- A field with one name is found under that name. -/
theorem override?_eq_lookup (fields : List (Text × Entry)) {f : Field}
    (h : f.otherName? = none) : override? fields f = fields.reverse.lookup f.name := by
  rw [override?]
  induction fields.reverse with
  | nil => rfl
  | cons field rest ih =>
    rw [List.find?_cons, List.lookup_cons]
    by_cases hname : f.name = field.1
    · rw [beq_iff_eq.mpr hname,
        beq_iff_eq.mpr ((Field.ofName?_eq_some_of_single h).mpr hname.symm)]
      rfl
    · rw [beq_false_of_ne hname,
        beq_false_of_ne fun hf => hname ((Field.ofName?_eq_some_of_single h).mp hf).symm]
      exact ih

/-- The second reading finds what the first one does. -/
theorem entryAt_eq_override? (fields : List (Text × Entry)) {f : Field}
    (h : f.otherName? = none) : entryAt fields f.name = (override? fields f).getD .absent := by
  rw [override?_eq_lookup fields h, entryAt]

/-- The lists of a rule come of the first reading too. -/
theorem ofFields_eq (fields : List (Text × Entry)) :
    ofFields fields = { ofFields fields with
      children := ((override? fields .children).getD .absent).members
      operators := ((override? fields .operators).getD .absent).members.map Mark.ofEntry
      operands := ((override? fields .operands).getD .absent).members.map Mark.ofEntry } := by
  rw [← entryAt_eq_override? fields (f := .children) rfl,
    ← entryAt_eq_override? fields (f := .operators) rfl,
    ← entryAt_eq_override? fields (f := .operands) rfl]
  rfl

/-- The rule of a table is what comes of setting its fields one after another. -/
theorem ofFields_eq_foldl (fields : List (Text × Entry)) :
    ofFields fields = fields.foldl setNamed default := by
  induction fields using List.reverseRecOn with
  | nil => rfl
  | append_singleton fields field ih =>
    rw [List.foldl_append, ← ih, List.foldl_cons, List.foldl_nil, ofFields_eq, ofFields_eq fields,
      setNamed]
    cases hf : Field.ofName? field.1 with
    | none => simp only [ofFields, override?_concat, hf, reduceCtorEq, if_false]
    | some f =>
      cases f <;> simp only [ofFields, set, override?_concat, hf, Option.some.injEq, reduceCtorEq,
        if_true, if_false, Option.getD_some]

/-- What the default rule has and the setting of each field keeps, the rule of a table has. -/
theorem ofFields_keeps {P : Rule → Prop} {fields : List (Text × Entry)} (start : P default)
    (step : ∀ r, P r → ∀ field ∈ fields, ∀ f, Field.ofName? field.1 = some f →
      P (r.set f field.2)) : P (ofFields fields) := by
  rw [ofFields_eq_foldl]
  refine List.foldlRecOn fields setNamed start fun r hr field hfield => ?_
  unfold setNamed
  split
  · rename_i f hf
    exact step r hr field hfield f hf
  · exact hr

end Rule

end Estree
