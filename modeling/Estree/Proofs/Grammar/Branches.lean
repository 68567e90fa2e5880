import Estree.Proofs.Grammar.Layers
import Estree.Proofs.Rule.Fields
import Estree.Walk

/-!
Branch counts of the standard grammar.

Ten node types count branches, `branchTable`; the rest count none.  Five of the counts
are switched by a setting of their own, so the branches of a node are those that count
always and those of the settings that are on: `cyclomaticFor_standard`.
-/

namespace Estree

namespace Rule

theorem cyclomatic_ofFields (fields : List (Text × Entry)) :
    (ofFields fields).cyclomatic =
      (fields.reverse.lookup ("cyclomatic" : Text)).getD (.data (.int 0)) := by
  have hlast := override?_eq_lookup fields (f := .cyclomatic) rfl
  rw [ofFields, hlast]
  rfl

end Rule

namespace Grammar

/-- The types that count branches, with their counts. -/
def branchTable : List (Text × Entry) := [
  ("CatchClause", flagBranch "trycatch"),
  ("ConditionalExpression", count 1),
  ("DoWhileStatement", fromNode (oneIfProp "test")),
  ("ForInStatement", flagBranch "forin"),
  ("ForStatement", fromNode (oneIfProp "test")),
  ("IfStatement", count 1),
  ("LogicalExpression", fromNodeAndFlags logicalBranches),
  ("SwitchCase", fromNodeAndFlags caseBranches),
  ("WhileStatement", fromNode (oneIfProp "test")),
  ("ForOfStatement", flagBranch "forof")]

/-- Every row of the branch table is written in a table of an edition. -/
theorem mem_branchTable : ∀ row ∈ branchTable, ∃ e : Edition, ∃ fields,
    (row.1, fields) ∈ e.table ∧ fields.reverse.lookup ("cyclomatic" : Text) = some row.2 := by
  have base (i : Nat) (type : Text) (fields : List (Text × Entry)) (entry : Entry)
      (hi : baseTable[i]? = some (type, fields))
      (hl : fields.reverse.lookup ("cyclomatic" : Text) = some entry) :
      ∃ e : Edition, ∃ fields, (type, fields) ∈ e.table ∧
        fields.reverse.lookup ("cyclomatic" : Text) = some entry :=
    ⟨.es5, fields, List.mem_of_getElem? hi, hl⟩
  simp only [branchTable, List.forall_mem_cons]
  refine ⟨base 6 _ _ _ rfl rfl, base 7 _ _ _ rfl rfl, base 10 _ _ _ rfl rfl, base 13 _ _ _ rfl rfl,
    base 14 _ _ _ rfl rfl, base 18 _ _ _ rfl rfl, base 21 _ _ _ rfl rfl, base 28 _ _ _ rfl rfl,
    base 37 _ _ _ rfl rfl, ?_, List.forall_mem_nil _⟩
  exact ⟨.es2015, _, List.mem_of_getElem? (i := 10) rfl, rfl⟩

def countsBranches (row : Text × List (Text × Entry)) : Bool :=
  (row.2.map Prod.fst).contains "cyclomatic"

theorem mem_branchTable_of_countsBranches (e : Edition) :
    ∀ row ∈ e.table, countsBranches row = true → row.1 ∈ branchTable.map Prod.fst := by
  cases e <;> decide +kernel

/-- The branch count of a type in the standard grammar. -/
def branchesOf (type : Option Text) : Entry :=
  (type.bind fun t => branchTable.lookup t).getD (count 0)

theorem cyclomatic_standard (type : Option Text) :
    (standard.lookup type).cyclomatic = branchesOf type := by
  cases type with
  | none => rfl
  | some type =>
    rw [lookup, branchesOf, Option.bind_some, Option.bind_some]
    cases hb : branchTable.lookup type with
    | some entry =>
      obtain ⟨e, fields, hrow, hl⟩ := mem_branchTable _ (Entries.mem_of_lookup hb)
      have hrule : standard.rule? type = some (.ofFields fields) :=
        rule?_standard_eq_some.mpr ⟨e, fields, hrow, rfl⟩
      rw [hrule, Option.getD_some, Rule.cyclomatic_ofFields, hl]
      rfl
    | none =>
      cases hr : standard.rule? type with
      | none => rfl
      | some r =>
        obtain ⟨e, fields, hrow, rfl⟩ := rule?_standard_eq_some.mp hr
        have hl : fields.reverse.lookup ("cyclomatic" : Text) = none := by
          refine Entries.lookup_eq_none.mpr fun hc => ?_
          rw [List.map_reverse, List.mem_reverse] at hc
          have hname := mem_branchTable_of_countsBranches e _ hrow (List.contains_iff_mem.mpr hc)
          exact Entries.lookup_eq_none.mp hb hname
        rw [Option.getD_some, Rule.cyclomatic_ofFields, hl]
        rfl

/-! ### Branches of a node -/

/-- A branch that no setting switches. -/
def alwaysBranches (node : Value) : Bool :=
  node.isA "ConditionalExpression" || node.isA "IfStatement" ||
    ((node.isA "ForStatement" || node.isA "WhileStatement" || node.isA "DoWhileStatement") &&
      (node.prop "test").truthy) ||
    (node.isA "LogicalExpression" && isText (node.prop "operator") "&&")

/-- The settings that switch branches. -/
inductive Gate where
  | logicalor
  | switchcase
  | forin
  | trycatch
  | forof
  deriving DecidableEq, Repr

namespace Gate

def all : List Gate := [.logicalor, .switchcase, .forin, .trycatch, .forof]

def name : Gate → Text
  | .logicalor => "logicalor"
  | .switchcase => "switchcase"
  | .forin => "forin"
  | .trycatch => "trycatch"
  | .forof => "forof"

/-- The branch of a node that the setting switches. -/
def branches : Gate → Value → Bool
  | .logicalor, node => node.isA "LogicalExpression" && isText (node.prop "operator") "||"
  | .switchcase, node => node.isA "SwitchCase" && (node.prop "test").truthy
  | .forin, node => node.isA "ForInStatement"
  | .trycatch, node => node.isA "CatchClause"
  | .forof, node => node.isA "ForOfStatement"

def isOn (gate : Gate) (flags : Flags) : Bool := (flags gate.name).truthy

end Gate

/-- The branches of a node: one that always counts, and one for each open gate that it
is behind. -/
def branchCount (flags : Flags) (node : Value) : Nat :=
  (if alwaysBranches node then 1 else 0) +
    Walk.total (Gate.all.map fun gate => if gate.branches node && gate.isOn flags then 1 else 0)

theorem isText_and_or (v : Value) : (isText v "&&" && isText v "||") = false := by
  cases v with
  | text s =>
    by_cases h : s = "&&"
    · subst h; rfl
    · simp [isText, h]
  | _ => rfl

theorem type?_of_isA {node : Value} {type : Text} (h : node.isA type = true) :
    node.type? = some type := beq_iff_eq.mp h

theorem isA_eq {node : Value} {type : Text} (h : node.type? = some type) (other : Text) :
    node.isA other = (type == other) := by
  rw [Value.isA, h]
  rfl

theorem oneIf_eq (b : Bool) : oneIf b = .int ((if b then 1 else 0 : Nat) : Int) := by
  cases b <;> rfl

theorem logicalBranches_eq (node : Value) (flags : Flags) :
    logicalBranches node flags =
      .int (((if isText (node.prop "operator") "&&" then 1 else 0) +
        if isText (node.prop "operator") "||" && (flags "logicalor").truthy then 1 else 0 : Nat) :
          Int) := by
  have hone := isText_and_or (node.prop "operator")
  rw [logicalBranches, oneIf_eq]
  cases hand : isText (node.prop "operator") "&&" with
  | false => simp
  | true =>
    rw [hand, Bool.true_and] at hone
    simp [hone]

theorem caseBranches_eq (node : Value) (flags : Flags) :
    caseBranches node flags =
      .int ((if (node.prop "test").truthy && (flags "switchcase").truthy then 1 else 0 : Nat) :
        Int) := by
  rw [caseBranches, Bool.and_comm, oneIf_eq]

theorem eval_branchTable (flags : Flags) (node : Value) :
    ∀ row ∈ branchTable, node.type? = some row.1 →
      row.2.eval node flags = .ok (.int (branchCount flags node)) := by
  simp only [branchTable, List.forall_mem_cons]
  refine ⟨?_, ?_, ?_, ?_, ?_, ?_, ?_, ?_, ?_, ?_, List.forall_mem_nil _⟩
  -- The name of a row is compared with every name that the count asks for.
  all_goals
    intro h
    have hisA := isA_eq h
    simp [branchCount, alwaysBranches, Gate.all, Gate.branches, Gate.isOn, Gate.name, hisA,
      Text.ofString_inj, Entry.eval, Entry.shown, flagBranch, count, fromNode, fromNodeAndFlags,
      oneIfProp, logicalBranches_eq, caseBranches_eq, oneIf_eq]

theorem branchCount_eq_zero {flags : Flags} {node : Value}
    (h : ∀ row ∈ branchTable, node.isA row.1 = false) : branchCount flags node = 0 := by
  simp only [branchTable, List.forall_mem_cons] at h
  simp [branchCount, alwaysBranches, Gate.all, Gate.branches, h]

/-- The standard grammar gives every node its branches. -/
theorem cyclomaticFor_standard (node : Value) (flags : Flags) :
    (standard.lookup node.type?).cyclomaticFor node flags =
      .ok (.int (branchCount flags node)) := by
  rw [Rule.cyclomaticFor, cyclomatic_standard, branchesOf]
  cases ht : node.type?.bind fun t => branchTable.lookup t with
  | some entry =>
    obtain ⟨type, htype, hl⟩ := Option.bind_eq_some_iff.mp ht
    exact eval_branchTable flags node _ (Entries.mem_of_lookup hl) htype
  | none =>
    have hzero : branchCount flags node = 0 := branchCount_eq_zero fun row hrow => by
      by_contra hA
      have htype := type?_of_isA (Bool.of_not_eq_false hA)
      rw [htype] at ht
      exact Entries.lookup_eq_none.mp ht (List.mem_map_of_mem hrow)
    rw [hzero]
    rfl

end Grammar

end Estree
