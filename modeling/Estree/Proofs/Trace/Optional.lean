import Estree.Proofs.Grammar.Answers
import Estree.Proofs.Trace.Lines
import Estree.Proofs.Walk.Slots
import Estree.Settings

/-!
Parts of a node that may be left out.

Whether an optional part is there is asked of a node in three ways: the counts ask if it is
true, the marks if it is not null, and a walk if it is a node.  Of a part that is null or a
node the three are the same question, so what a node contributes tells what a walk finds
below it.  Main statement: `shown_as_found`.
-/

namespace Estree

namespace Value

/-- What an optional part may be. -/
def NullOrNode (v : Value) : Prop := v = .null ∨ v.isNode = true

theorem truthy_of_isNode {v : Value} (h : v.isNode = true) : v.truthy = true := by
  obtain ⟨style, fields, rfl⟩ := exists_fields_of_isNode h
  cases style with
  | attributes kind said => rfl
  | mapping =>
    -- A node has its type, so it is not the empty mapping.
    cases fields with
    | nil => cases h
    | cons field rest => rfl

variable {v : Value}

theorem NullOrNode.truthy_eq (h : v.NullOrNode) : v.truthy = v.isNode := by
  rcases h with rfl | hnode
  · rfl
  · rw [hnode, truthy_of_isNode hnode]

theorem NullOrNode.not_isNull_eq (h : v.NullOrNode) : (!v.isNull) = v.isNode := by
  rcases h with rfl | hnode
  · rfl
  · obtain ⟨style, fields, rfl⟩ := exists_fields_of_isNode hnode
    rw [hnode]
    rfl

theorem NullOrNode.isNode_iff (h : v.NullOrNode) : v.isNode = true ↔ v ≠ .null := by
  rw [← h.not_isNull_eq]
  cases v <;> simp [isNull]

/-- An optional part stands below its node if it is a node. -/
theorem mem_children_optional {node : Value} {names : List Entry} {cs : List (Slot × Value)}
    {i : Nat} {name : Text} (hcs : node.children names = .ok cs)
    (hname : names[i]? = some (.data (.text name))) (hpart : (node.prop name).NullOrNode) :
    ((⟨i, 0⟩, node.prop name) : Slot × Value) ∈ cs ↔ (node.prop name).isNode = true := by
  have hslot : node.childAt? names ⟨i, 0⟩ = (node.prop name).nodeAt? 0 := by
    rw [childAt?, hname]
    rfl
  have hmem := mem_childrenFrom (c := (⟨i, 0⟩, node.prop name)) hcs
  rw [hmem, Nat.sub_zero, hslot]
  rcases hpart with hnull | hnode
  · rw [hnull]
    simp [nodeAt?, isNode, type?, text?]
  · obtain ⟨style, fields, hfields⟩ := exists_fields_of_isNode hnode
    rw [hfields] at hnode ⊢
    simp [nodeAt?, hnode]

end Value

namespace Grammar

/-- A part that nodes of a type may have, and what shows in their contribution that it is
there. -/
structure OptionalPart where
  type : Text
  /-- The property that holds it. -/
  name : Text
  /-- The number of names of children before that of the property. -/
  index : Nat
  signs : List (Contribution → Prop)

def optionalParts : List OptionalPart := [
  ⟨"IfStatement", "alternate", 2,
    [fun c => c.lloc = .int 2, fun c => .text "else" ∈ c.operators]⟩,
  ⟨"VariableDeclarator", "init", 1, [fun c => .text "=" ∈ c.operators]⟩,
  ⟨"PropertyDefinition", "value", 1, [fun c => .text "=" ∈ c.operators]⟩,
  ⟨"WhileStatement", "test", 0, [fun c => c.cyclomatic = .int 1]⟩,
  ⟨"DoWhileStatement", "test", 1, [fun c => c.cyclomatic = .int 1]⟩,
  ⟨"ForStatement", "test", 1, [fun c => c.cyclomatic = .int 1]⟩,
  ⟨"SwitchCase", "test", 0, [fun c => c.operators = [.text "case"],
    fun c => .text "default" ∉ c.operators, fun c => c.cyclomatic = .int 1]⟩]

namespace OptionalPart

/-- A rule finds such a part below a node, and counts and marks by it. -/
structure ShownBy (p : OptionalPart) (r : Rule) : Prop where
  child : r.children[p.index]? = some (.data (.text p.name))
  signs : ∀ (node : Value) (flags : Flags) (c : Contribution),
    (flags "switchcase").truthy = true → (node.prop p.name).NullOrNode →
    r.llocFor node = .ok c.lloc → r.cyclomaticFor node flags = .ok c.cyclomatic →
    r.operatorsFor node = .ok c.operators →
    ∀ sign ∈ p.signs, sign c ↔ (node.prop p.name).isNode = true

end OptionalPart

theorem resolveAll_word (s : Text) (ms : List Mark) (node : Value) :
    Mark.resolveAll (Mark.ofEntry (word s) :: ms) node =
      (Mark.resolveAll ms node).map (List.cons (.text s)) := by
  show (Mark.resolveAll ms node >>= fun more => pure (.text s :: more)) = _
  cases Mark.resolveAll ms node <;> rfl

theorem resolveAll_markIf (s : Text) (applies : Value → Bool) (node : Value) :
    Mark.resolveAll [Mark.ofEntry (markIf s applies)] node =
      .ok (if applies node then [.text s] else []) := by
  rw [Mark.resolveAll]
  have happlies : (Mark.ofEntry (markIf s applies)).appliesTo node = .ok (applies node) := rfl
  rw [happlies]
  cases applies node <;> rfl

theorem oneIf_eq_one {b : Bool} : oneIf b = .int 1 ↔ b = true := by
  cases b <;> simp [oneIf]

theorem shownBy_initial {type name : Text} {i : Nat} {r : Rule}
    (hchild : r.children[i]? = some (.data (.text name)))
    (hoperators : r.operators = [Mark.ofEntry (markIf "=" (hasProp name))]) :
    (OptionalPart.mk type name i [fun c => .text "=" ∈ c.operators]).ShownBy r := by
  refine ⟨hchild, fun node flags c _ hpart _ _ hc => List.forall_mem_singleton.mpr ?_⟩
  rw [Rule.operatorsFor, hoperators, resolveAll_markIf] at hc
  show .text "=" ∈ c.operators ↔ (node.prop name).isNode = true
  rw [← Except.ok.inj hc, hasProp, hpart.not_isNull_eq]
  cases (node.prop name).isNode <;> simp

theorem shownBy_loop {type : Text} {i : Nat} {r : Rule}
    (hchild : r.children[i]? = some (.data (.text "test")))
    (hcyclomatic : r.cyclomatic = fromNode (oneIfProp "test")) :
    (OptionalPart.mk type "test" i [fun c => c.cyclomatic = .int 1]).ShownBy r := by
  refine ⟨hchild, fun node flags c _ hpart _ hc _ => List.forall_mem_singleton.mpr ?_⟩
  rw [Rule.cyclomaticFor, hcyclomatic] at hc
  show c.cyclomatic = .int 1 ↔ (node.prop "test").isNode = true
  rw [← Except.ok.inj hc, oneIfProp, oneIf_eq_one, hpart.truthy_eq]

theorem shownBy_alternative {type : Text} {i : Nat} {r : Rule}
    (hchild : r.children[i]? = some (.data (.text "alternate")))
    (hlloc : r.lloc = fromNode ifLines)
    (hoperators : r.operators =
      [Mark.ofEntry (word "if"), Mark.ofEntry (markIf "else" (hasProp "alternate"))]) :
    (OptionalPart.mk type "alternate" i
      [fun c => c.lloc = .int 2, fun c => .text "else" ∈ c.operators]).ShownBy r := by
  refine ⟨hchild, fun node flags c _ hpart hl _ hc =>
    List.forall_mem_cons.mpr ⟨?_, List.forall_mem_singleton.mpr ?_⟩⟩
  · show c.lloc = .int 2 ↔ (node.prop "alternate").isNode = true
    rw [Rule.llocFor, hlloc] at hl
    rw [← Except.ok.inj hl, ifLines, hpart.truthy_eq]
    cases (node.prop "alternate").isNode <;> simp
  · show .text "else" ∈ c.operators ↔ (node.prop "alternate").isNode = true
    rw [Rule.operatorsFor, hoperators, resolveAll_word, resolveAll_markIf] at hc
    rw [← Except.ok.inj hc, hasProp, hpart.not_isNull_eq]
    have hother : ("else" : Text) ≠ "if" := by decide
    cases (node.prop "alternate").isNode <;> simp [hother]

theorem shownBy_case {type : Text} {i : Nat} {r : Rule}
    (hchild : r.children[i]? = some (.data (.text "test")))
    (hcyclomatic : r.cyclomatic = fromNodeAndFlags caseBranches)
    (hoperators : r.operators = [Mark.ofEntry (fromNode caseOperator)]) :
    (OptionalPart.mk type "test" i [fun c => c.operators = [.text "case"],
      fun c => .text "default" ∉ c.operators, fun c => c.cyclomatic = .int 1]).ShownBy r := by
  refine ⟨hchild, fun node flags c hswitch hpart _ hb hc => ?_⟩
  rw [Rule.operatorsFor, hoperators] at hc
  rw [Rule.cyclomaticFor, hcyclomatic] at hb
  have hname : [caseOperator node] = c.operators := Except.ok.inj hc
  have hbranches : caseBranches node flags = c.cyclomatic := Except.ok.inj hb
  simp only [List.forall_mem_cons]
  rw [← hname, ← hbranches, caseOperator, caseBranches, hswitch, Bool.true_and, oneIf_eq_one,
    hpart.truthy_eq]
  have hother : ("default" : Text) ≠ "case" := by decide
  cases (node.prop "test").isNode <;> simp [hother]

theorem shownBy_standard : ∀ p ∈ optionalParts, p.ShownBy (standard.lookup (some p.type)) := by
  have row {type : Text} {fields : List (Text × Entry)} (e : Edition) (i : Nat)
      (h : e.table[i]? = some (type, fields)) :
      standard.lookup (some type) = .ofFields fields := by
    rw [lookup, Option.bind_some, rule?_standard_of_row e i h]
    rfl
  simp only [optionalParts, List.forall_mem_cons]
  refine ⟨?_, ?_, ?_, ?_, ?_, ?_, ?_, List.forall_mem_nil _⟩
  · rw [row .es5 18 rfl]
    exact shownBy_alternative rfl rfl rfl
  · rw [row .es5 36 rfl]
    exact shownBy_initial rfl rfl
  · rw [row .es2022 1 rfl]
    exact shownBy_initial rfl rfl
  · rw [row .es5 37 rfl]
    exact shownBy_loop rfl rfl
  · rw [row .es5 10 rfl]
    exact shownBy_loop rfl rfl
  · rw [row .es5 14 rfl]
    exact shownBy_loop rfl rfl
  · rw [row .es5 28 rfl]
    exact shownBy_case rfl rfl rfl

theorem exists_children (type : Option Text) (node : Value) :
    ∃ cs, (standard.lookup type).childrenOf node = .ok cs := by
  rw [lookup]
  cases hr : type.bind standard.rule? with
  | none => exact ⟨[], rfl⟩
  | some r =>
    obtain ⟨t, -, ht⟩ := Option.bind_eq_some_iff.mp hr
    exact Rule.childrenOf_ok (isStatic_of_standard ht) node

theorem exists_contribution_optional (flags : Flags) {p : OptionalPart} (hp : p ∈ optionalParts)
    {node : Value} (htype : node.type? = some p.type) :
    ∃ c, Contribution.of .standard flags node = .ok c := by
  rcases contribution_cases flags node with ⟨hfail, -⟩ | ⟨-, c, hc, -⟩
  · -- What has an optional part is no call, and only calls can fail.
    exfalso
    have hcall := type?_of_isA hfail.1.1
    have hname : ("CallExpression" : Text) ∈ optionalParts.map OptionalPart.type :=
      List.mem_map.mpr ⟨p, hp, Option.some.inj (htype.symm.trans hcall)⟩
    revert hname
    decide
  · exact ⟨c, hc⟩

/-- A node with an optional part that is null or a node itself has a contribution and
children, and whatever shows the part in the one, under settings that count the cases of a
switch, shows that it is found among the others. -/
theorem shown_as_found {flags : Flags} (hswitch : (flags "switchcase").truthy = true)
    {p : OptionalPart} (hp : p ∈ optionalParts) {node : Value} (htype : node.isA p.type = true)
    (hpart : (node.prop p.name).NullOrNode) :
    ∃ c cs, Contribution.of .standard flags node = .ok c ∧
      (standard.lookup node.type?).childrenOf node = .ok cs ∧
      ((⟨p.index, 0⟩, node.prop p.name) ∈ cs ↔ node.prop p.name ≠ .null) ∧
      ∀ sign ∈ p.signs, sign c ↔ (⟨p.index, 0⟩, node.prop p.name) ∈ cs := by
  have hnode := type?_of_isA htype
  have hshown := shownBy_standard p hp
  rw [← hnode] at hshown
  obtain ⟨c, hc⟩ := exists_contribution_optional flags hp hnode
  obtain ⟨cs, hcs⟩ := exists_children node.type? node
  obtain ⟨hlloc, hcyclomatic, hoperators, -⟩ := Contribution.fields_of hc
  have hfound := Value.mem_children_optional hcs hshown.child hpart
  refine ⟨c, cs, hc, hcs, hfound.trans hpart.isNode_iff, fun sign hsign => ?_⟩
  rw [hfound]
  exact hshown.signs node flags c hswitch hpart hlloc hcyclomatic hoperators sign hsign

/-- An object with an alternative that is a mapping. -/
def branching : Value := .object .record [("type", .text "IfStatement"),
  ("alternate", .mapping [("type", .text "BlockStatement")])]

theorem alternative_found : ∃ c cs,
    Contribution.of .standard Settings.default.toFlags branching = .ok c ∧
      (standard.lookup branching.type?).childrenOf branching = .ok cs ∧
      (⟨2, 0⟩, branching.prop "alternate") ∈ cs ∧ c.lloc = .int 2 ∧
      .text "else" ∈ c.operators := by
  have hswitch : (Settings.default.toFlags "switchcase").truthy = true := rfl
  have hpart : OptionalPart.mk "IfStatement" "alternate" 2
      [fun c => c.lloc = .int 2, fun c => .text "else" ∈ c.operators] ∈ optionalParts :=
    List.mem_cons_self
  have hbranching : branching.isA "IfStatement" = true := rfl
  obtain ⟨c, cs, hc, hcs, hfound, hsigns⟩ := shown_as_found hswitch hpart hbranching (.inr rfl)
  have hmem : (⟨2, 0⟩, branching.prop "alternate") ∈ cs := hfound.mpr Value.noConfusion
  simp only [List.forall_mem_cons] at hsigns
  exact ⟨c, cs, hc, hcs, hmem, hsigns.1.mpr hmem, hsigns.2.1.mpr hmem⟩

end Grammar

end Estree
