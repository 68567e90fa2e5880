import Estree.Contribution
import Estree.Proofs.Grammar.Branches

/-!
What the standard grammar has an answer to.

Whatever a node holds, its rule counts its lines and its branches, names its operators and
its operands, and says what it assigns to: `Rule.Answers`.  Only the dependency of a call
of `require` can fail to be worked out, if something that has no first member stands for
the arguments: `contribution_of_standard`.
-/

namespace Estree

/-! ### Rules that answer -/

namespace Entry

/-- A function with an answer for every node, or no function at all. -/
def Answers (e : Entry) : Prop := ∀ node, ∃ v, e.call node = .ok v

theorem answers_absent : Entry.absent.Answers := fun _ => ⟨.null, rfl⟩

/-- A count of no more than two lines for every node. -/
def CountsLines (e : Entry) : Prop :=
  ∀ node, e.eval node .none = .ok (.int 0) ∨ e.eval node .none = .ok (.int 1) ∨
    e.eval node .none = .ok (.int 2)

end Entry

namespace Mark

structure Answers (m : Mark) : Prop where
  resolve : m.resolve.Answers
  filter : m.filter.Answers

theorem answers_tag (e : Entry) : (tag e).Answers := ⟨Entry.answers_absent, Entry.answers_absent⟩

theorem Answers.exists_appliesTo {m : Mark} (h : m.Answers) (node : Value) :
    ∃ b, m.appliesTo node = .ok b := by
  rw [appliesTo]
  split
  · exact ⟨true, rfl⟩
  · obtain ⟨v, hv⟩ := h.filter node
    exact ⟨v.truthy, by rw [hv]; rfl⟩

theorem Answers.exists_resolveFor {m : Mark} (h : m.Answers) (node : Value) :
    ∃ v, m.resolveFor node = .ok v := by
  rw [resolveFor]
  split
  · exact ⟨_, rfl⟩
  · exact h.resolve node

theorem exists_resolveAll {ms : List Mark} (h : ∀ m ∈ ms, m.Answers) (node : Value) :
    ∃ names, resolveAll ms node = .ok names := by
  induction ms with
  | nil => exact ⟨[], rfl⟩
  | cons m ms ih =>
    obtain ⟨more, hmore⟩ := ih fun m' hm => h m' (List.mem_cons_of_mem m hm)
    obtain ⟨applies, happlies⟩ := (h m List.mem_cons_self).exists_appliesTo node
    obtain ⟨name, hname⟩ := (h m List.mem_cons_self).exists_resolveFor node
    rw [resolveAll, happlies]
    cases applies with
    | true => exact ⟨name :: more, by rw [hname, hmore]; rfl⟩
    | false => exact ⟨more, hmore⟩

end Mark

/-- An operator or operand, or a list of them, that can be named for every node. -/
def Entry.Names (e : Entry) : Prop := ∀ m ∈ e.members, (Mark.ofEntry m).Answers

namespace Rule

/-- What a field of the rule of a type has to be for the rule to answer. -/
def Field.Answers (type : Option Text) (e : Entry) : Field → Prop
  | .children | .cyclomatic | .newScope => True
  | .operators | .operands => e.Names
  | .lloc => e.CountsLines
  | .dependencies => type ≠ some ("CallExpression" : Text) → e.Answers
  | .assignableName | .methodName => e.Answers

/-- The rule of a type that answers for every node.  Calls may have dependencies that
cannot be worked out, and of branches nothing is said. -/
structure Answers (type : Option Text) (r : Rule) : Prop where
  lloc : r.lloc.CountsLines
  operators : ∀ m ∈ r.operators, m.Answers
  operands : ∀ m ∈ r.operands, m.Answers
  dependencies : type ≠ some ("CallExpression" : Text) → r.dependencies.Answers
  assignableName : r.assignableName.Answers
  methodName : r.methodName.Answers

variable {type : Option Text}

theorem answers_default : Rule.default.Answers type where
  lloc := fun _ => .inl rfl
  operators := List.forall_mem_nil _
  operands := List.forall_mem_nil _
  dependencies := fun _ => Entry.answers_absent
  assignableName := Entry.answers_absent
  methodName := Entry.answers_absent

theorem Answers.set {r : Rule} (h : r.Answers type) {f : Field} {e : Entry}
    (he : f.Answers type e) : (r.set f e).Answers type := by
  have hmarks : e.Names → ∀ m ∈ e.members.map Mark.ofEntry, m.Answers := by
    intro hnames m hm
    obtain ⟨e', he', rfl⟩ := List.mem_map.mp hm
    exact hnames e' he'
  cases f with
  | children => exact { h with }
  | operators => exact { h with operators := hmarks he }
  | operands => exact { h with operands := hmarks he }
  | lloc => exact { h with lloc := he }
  | cyclomatic => exact { h with }
  | newScope => exact { h with }
  | dependencies => exact { h with dependencies := he }
  | assignableName => exact { h with assignableName := he }
  | methodName => exact { h with methodName := he }

/-- A field as a table writes it, that answers if it is a field at all. -/
def FieldAnswers (type : Option Text) (field : Text × Entry) : Prop :=
  ∀ f, Field.ofName? field.1 = some f → f.Answers type field.2

theorem fieldAnswers_iff {name : Text} {f : Field} (h : Field.ofName? name = some f) (e : Entry) :
    FieldAnswers type (name, e) ↔ f.Answers type e := by
  constructor
  · intro ha
    exact ha f h
  · intro ha f' hf
    cases h.symm.trans hf
    exact ha

theorem answers_ofFields {fields : List (Text × Entry)}
    (h : ∀ field ∈ fields, FieldAnswers type field) : (ofFields fields).Answers type :=
  ofFields_keeps answers_default fun _ hr field hfield f hf => hr.set (h field hfield f hf)

end Rule

namespace Grammar

/-! ### The tables -/

section Tables

open Rule (FieldAnswers fieldAnswers_iff)

variable {type : Option Text}

theorem fieldAnswers_children (e : Entry) : FieldAnswers type ("children", e) ↔ True :=
  fieldAnswers_iff (f := .children) rfl e

theorem fieldAnswers_cyclomatic (e : Entry) : FieldAnswers type ("cyclomatic", e) ↔ True :=
  fieldAnswers_iff (f := .cyclomatic) rfl e

theorem fieldAnswers_newScope (e : Entry) : FieldAnswers type ("new_scope", e) ↔ True :=
  fieldAnswers_iff (f := .newScope) rfl e

theorem fieldAnswers_operators (e : Entry) : FieldAnswers type ("operators", e) ↔ e.Names :=
  fieldAnswers_iff (f := .operators) rfl e

theorem fieldAnswers_operands (e : Entry) : FieldAnswers type ("operands", e) ↔ e.Names :=
  fieldAnswers_iff (f := .operands) rfl e

theorem fieldAnswers_lloc (e : Entry) : FieldAnswers type ("lloc", e) ↔ e.CountsLines :=
  fieldAnswers_iff (f := .lloc) rfl e

theorem fieldAnswers_dependencies (e : Entry) :
    FieldAnswers type ("dependencies", e) ↔
      (type ≠ some ("CallExpression" : Text) → e.Answers) :=
  fieldAnswers_iff (f := .dependencies) rfl e

theorem fieldAnswers_assignableName (e : Entry) :
    FieldAnswers type ("assignable_name", e) ↔ e.Answers :=
  fieldAnswers_iff (f := .assignableName) rfl e

theorem fieldAnswers_methodName (e : Entry) :
    FieldAnswers type ("method_name", e) ↔ e.Answers :=
  fieldAnswers_iff (f := .methodName) rfl e

theorem answers_fromNode (f : Value → Value) : (fromNode f).Answers := fun node => ⟨f node, rfl⟩

theorem names_word (s : Text) : (word s).Names :=
  List.forall_mem_singleton.mpr (Mark.answers_tag _)

theorem names_fromNode (f : Value → Value) : (fromNode f).Names :=
  List.forall_mem_singleton.mpr ⟨answers_fromNode f, Entry.answers_absent⟩

theorem answers_markIf (identifier : Text) (applies : Value → Bool) :
    (Mark.ofEntry (markIf identifier applies)).Answers :=
  ⟨Entry.answers_absent, answers_fromNode _⟩

theorem names_markIf (identifier : Text) (applies : Value → Bool) :
    (markIf identifier applies).Names :=
  List.forall_mem_singleton.mpr (answers_markIf identifier applies)

theorem names_ownNameIfAny : ownNameIfAny.Names :=
  List.forall_mem_singleton.mpr ⟨answers_fromNode ownName, answers_fromNode _⟩

theorem names_ifOperators :
    (Entry.list [word "if", markIf "else" (hasProp "alternate")]).Names := by
  refine List.forall_mem_cons.mpr ⟨Mark.answers_tag _, ?_⟩
  exact List.forall_mem_singleton.mpr (answers_markIf _ _)

theorem countsLines_count {n : Int} (h : n = 1 ∨ n = 2) : (count n).CountsLines := by
  intro node
  rcases h with rfl | rfl
  · exact .inr (.inl rfl)
  · exact .inr (.inr rfl)

theorem countsLines_oneIf (p : Value → Bool) :
    (fromNode fun node => oneIf (p node)).CountsLines := by
  intro node
  show Except.ok (oneIf (p node)) = .ok (.int 0) ∨ Except.ok (oneIf (p node)) = .ok (.int 1) ∨ _
  cases p node with
  | true => exact .inr (.inl rfl)
  | false => exact .inl rfl

theorem countsLines_inlineCall : (fromNode inlineCall).CountsLines := countsLines_oneIf _

theorem countsLines_inlineObject : (fromNode inlineObject).CountsLines := countsLines_oneIf _

theorem countsLines_ifLines : (fromNode ifLines).CountsLines := by
  intro node
  show _ ∨ Except.ok (ifLines node) = .ok (.int 1) ∨ Except.ok (ifLines node) = .ok (.int 2)
  rw [ifLines]
  cases (node.prop "alternate").truthy with
  | true => exact .inr (.inr rfl)
  | false => exact .inr (.inl rfl)

theorem answers_of_mem_table (e : Edition) :
    ∀ row ∈ e.table, ∀ field ∈ row.2, FieldAnswers (some row.1) field := by
  cases e
  all_goals
    simp (disch := decide) only [Edition.table, baseTable, es2015Table, es2017Table, es2020Table,
      es2022Table, nodeType, operatorProp, nameOf, List.forall_mem_cons, List.not_mem_nil,
      false_imp_iff, implies_true, and_true, fieldAnswers_children, fieldAnswers_cyclomatic,
      fieldAnswers_newScope, fieldAnswers_operators, fieldAnswers_operands, fieldAnswers_lloc,
      fieldAnswers_dependencies, fieldAnswers_assignableName, fieldAnswers_methodName,
      answers_fromNode, names_word, names_fromNode, names_markIf, names_ownNameIfAny,
      names_ifOperators, countsLines_count, countsLines_inlineCall, countsLines_inlineObject,
      countsLines_ifLines, ne_eq, not_true_eq_false]

/-- Every rule of the standard grammar answers, and so does that of a type without one. -/
theorem answers_standard (type : Option Text) : (standard.lookup type).Answers type := by
  cases hr : type.bind standard.rule? with
  | none =>
    rw [lookup, hr]
    exact Rule.answers_default
  | some r =>
    obtain ⟨t, rfl, ht⟩ := Option.bind_eq_some_iff.mp hr
    obtain ⟨e, fields, hrow, rfl⟩ := rule?_standard_eq_some.mp ht
    rw [lookup, hr]
    exact Rule.answers_ofFields (answers_of_mem_table e (t, fields) hrow)

end Tables

/-! ### Calls of `require` -/

/-- A call of a function named `require`. -/
def RequireCall (node : Value) : Prop :=
  node.isA "CallExpression" = true ∧ (node.prop "callee").isA "Identifier" = true ∧
    (node.prop "callee").prop "name" = .text "require"

/-- Something true that has no first member: neither a list nor text. -/
def Unordered (v : Value) : Prop :=
  v.truthy = true ∧ (∀ items, v ≠ .list items) ∧ ∀ s, v ≠ .text s

/-- The fault of asking something for its first member. -/
def orderFault : Value → Fault
  | .object .mapping _ => .noMember (.int 0)
  | v => .notIndexable v.kind

/-- A call of `require` with arguments of which none is the first. -/
def FailingRequire (node : Value) : Prop := RequireCall node ∧ Unordered (node.prop "arguments")

/-- The first argument of a call, null if the arguments are no list with a member. -/
def firstNode (node : Value) : Value :=
  match node.prop "arguments" with
  | .list (first :: _) => first
  | _ => .null

/-- The path that a call of `require` depends on: the text of a literal that stands first,
and else it cannot be told before the call. -/
def RequiredPath (node path : Value) : Prop :=
  (∀ s, (firstNode node).isA "Literal" = true → (firstNode node).prop "value" = .text s →
    path = .text s) ∧
  ((∀ s, ¬((firstNode node).isA "Literal" = true ∧ (firstNode node).prop "value" = .text s)) →
    path = .text "* dynamic dependency *")

theorem isText_eq_true {v : Value} {s : Text} : isText v s = true ↔ v = .text s := by
  cases v with
  | text t => simp [isText]
  | _ => simp [isText]

theorem requireCall_iff {node : Value} (hcall : node.isA "CallExpression" = true) :
    RequireCall node ↔ ((node.prop "callee").isA "Identifier" &&
      isText ((node.prop "callee").prop "name") "require") = true := by
  rw [Bool.and_eq_true, isText_eq_true, RequireCall]
  exact ⟨fun h => h.2, fun h => ⟨hcall, h⟩⟩

theorem firstArgument_of_unordered {v : Value} (h : Unordered v) :
    firstArgument v = .error (orderFault v) := by
  obtain ⟨htrue, hlist, htext⟩ := h
  unfold firstArgument
  rw [if_pos htrue]
  cases v with
  | list items => exact absurd rfl (hlist items)
  | text s => exact absurd rfl (htext s)
  | object style fields => cases style <;> rfl
  | _ => rfl

/-- The first argument is read off, or is no node: there is none, or it is a letter. -/
theorem firstArgument_of_not_unordered {node : Value} (h : ¬Unordered (node.prop "arguments")) :
    ∃ first, firstArgument (node.prop "arguments") = .ok first ∧
      (first = firstNode node ∨ first.isNode = false ∧ firstNode node = .null) := by
  unfold firstNode firstArgument
  by_cases htrue : (node.prop "arguments").truthy = true
  · rw [if_pos htrue]
    cases ha : node.prop "arguments" with
    | list items =>
      refine ⟨items.head?.getD .null, rfl, .inl ?_⟩
      cases items <;> rfl
    | text s => exact ⟨_, rfl, .inr ⟨rfl, rfl⟩⟩
    | _ => exact absurd ⟨htrue, fun items => by simp [ha], fun s => by simp [ha]⟩ h
  · rw [if_neg htrue]
    refine ⟨.null, rfl, .inr ⟨rfl, ?_⟩⟩
    cases ha : node.prop "arguments" with
    | list items =>
      cases items with
      | nil => rfl
      | cons first rest => rw [ha] at htrue; exact absurd rfl htrue
    | _ => rfl

theorem requiredPath_of_first {node first : Value}
    (h : first = firstNode node ∨ first.isNode = false ∧ firstNode node = .null) :
    RequiredPath node (if first.isA "Literal" && (first.prop "value").text?.isSome
      then first.prop "value" else .text "* dynamic dependency *") := by
  rcases h with rfl | ⟨hfirst, hnull⟩
  · constructor
    · intro s hliteral hs
      rw [hliteral, hs]
      rfl
    · intro hno
      refine if_neg fun hknown => ?_
      obtain ⟨hliteral, htext⟩ := (Bool.and_eq_true _ _).mp hknown
      cases hv : (firstNode node).prop "value" with
      | text s => exact hno s ⟨hliteral, hv⟩
      | _ => rw [hv] at htext; cases htext
  · -- What is no node is no literal, and neither is null.
    have hliteral : first.isA "Literal" = false := by
      by_contra hA
      rw [Value.isNode_of_isA (Bool.of_not_eq_false hA)] at hfirst
      cases hfirst
    rw [hliteral]
    refine ⟨fun s hnode => ?_, fun _ => rfl⟩
    rw [hnull] at hnode
    cases hnode

theorem dependencyFor_call {node : Value} (h : node.isA "CallExpression" = true) :
    (standard.lookup node.type?).dependencyFor node = requireDependency node := by
  rw [type?_of_isA h, lookup, Option.bind_some, rule?_standard_of_row .es5 5 rfl]
  rfl

/-- Dependencies fail only for such calls, and those of a call of `require` name the path
it depends on. -/
theorem dependencyFor_standard (node : Value) :
    (FailingRequire node ∧ (standard.lookup node.type?).dependencyFor node =
        .error (orderFault (node.prop "arguments"))) ∨
      (¬FailingRequire node ∧ ∃ d, (standard.lookup node.type?).dependencyFor node = .ok d ∧
        (RequireCall node → ∃ path, d = dependency node "CommonJS" path ∧
          RequiredPath node path)) := by
  by_cases hcall : node.isA "CallExpression" = true
  · rw [dependencyFor_call hcall]
    by_cases hrequire : RequireCall node
    · have htest := (requireCall_iff hcall).mp hrequire
      unfold requireDependency
      rw [if_pos htest]
      by_cases hfail : Unordered (node.prop "arguments")
      · rw [firstArgument_of_unordered hfail]
        exact .inl ⟨⟨hrequire, hfail⟩, rfl⟩
      · obtain ⟨first, hfirst, hnode⟩ := firstArgument_of_not_unordered hfail
        rw [hfirst]
        exact .inr ⟨fun h => hfail h.2, _, rfl, fun _ => ⟨_, rfl, requiredPath_of_first hnode⟩⟩
    · have htest := mt (requireCall_iff hcall).mpr hrequire
      unfold requireDependency
      rw [if_neg htest]
      exact .inr ⟨fun h => hrequire h.1, .null, rfl, fun h => absurd h hrequire⟩
  · have htype : node.type? ≠ some ("CallExpression" : Text) := by simpa [Value.isA] using hcall
    obtain ⟨d, hd⟩ := (answers_standard node.type?).dependencies htype node
    exact .inr ⟨fun h => hcall h.1.1, d, hd, fun h => absurd h.1 hcall⟩

/-! ### Contributions -/

/-- A node has one branch or none. -/
theorem cyclomaticFor_eq (node : Value) (flags : Flags) :
    (standard.lookup node.type?).cyclomaticFor node flags = .ok (.int 0) ∨
      (standard.lookup node.type?).cyclomaticFor node flags = .ok (.int 1) := by
  have hone : ∀ b, Except.ok (oneIf b) = (.ok (.int 0) : Except Fault Value) ∨
      Except.ok (oneIf b) = (.ok (.int 1) : Except Fault Value) := by
    intro b
    cases b with
    | false => exact .inl rfl
    | true => exact .inr rfl
  have htable : ∀ row ∈ branchTable, ∃ b, row.2.eval node flags = .ok (oneIf b) := by
    simp only [branchTable, List.forall_mem_cons]
    exact ⟨⟨_, rfl⟩, ⟨true, rfl⟩, ⟨_, rfl⟩, ⟨_, rfl⟩, ⟨_, rfl⟩, ⟨true, rfl⟩, ⟨_, rfl⟩, ⟨_, rfl⟩,
      ⟨_, rfl⟩, ⟨_, rfl⟩, List.forall_mem_nil _⟩
  rw [Rule.cyclomaticFor, cyclomatic_standard, branchesOf]
  cases ht : node.type?.bind fun t => branchTable.lookup t with
  | none => exact .inl rfl
  | some entry =>
    obtain ⟨type, -, hl⟩ := Option.bind_eq_some_iff.mp ht
    obtain ⟨b, hb⟩ := htable _ (Entries.mem_of_lookup hl)
    rw [Option.getD_some, hb]
    exact hone b

theorem exists_opensScope (type : Option Text) (node : Value) :
    ∃ opens, (standard.lookup type).opensScope node = .ok opens := by
  rw [lookup]
  cases hr : type.bind standard.rule? with
  | none => exact ⟨false, rfl⟩
  | some r =>
    obtain ⟨t, -, ht⟩ := Option.bind_eq_some_iff.mp hr
    exact ⟨_, Rule.opensScope_ok (isStatic_of_standard ht) node⟩

/-- Of what a node contributes only the dependency can fail to be worked out. -/
theorem contribution_of_standard (flags : Flags) (node : Value) :
    ∃ c : Contribution,
      (c.lloc = .int 0 ∨ c.lloc = .int 1 ∨ c.lloc = .int 2) ∧
      (c.cyclomatic = .int 0 ∨ c.cyclomatic = .int 1) ∧
      Contribution.of .standard flags node =
        ((standard.lookup node.type?).dependencyFor node).map fun d =>
          { c with dependency := d } := by
  have hrule := answers_standard node.type?
  obtain ⟨lloc, hlloc, hlines⟩ : ∃ lloc, (standard.lookup node.type?).llocFor node = .ok lloc ∧
      (lloc = .int 0 ∨ lloc = .int 1 ∨ lloc = .int 2) := by
    rcases hrule.lloc node with h | h | h
    · exact ⟨_, h, .inl rfl⟩
    · exact ⟨_, h, .inr (.inl rfl)⟩
    · exact ⟨_, h, .inr (.inr rfl)⟩
  obtain ⟨cyclomatic, hcyclomatic, hbranches⟩ :
      ∃ cyclomatic, (standard.lookup node.type?).cyclomaticFor node flags = .ok cyclomatic ∧
        (cyclomatic = .int 0 ∨ cyclomatic = .int 1) := by
    rcases cyclomaticFor_eq node flags with h | h
    · exact ⟨_, h, .inl rfl⟩
    · exact ⟨_, h, .inr rfl⟩
  obtain ⟨operators, hoperators⟩ := Mark.exists_resolveAll hrule.operators node
  obtain ⟨operands, hoperands⟩ := Mark.exists_resolveAll hrule.operands node
  obtain ⟨opens, hopens⟩ := exists_opensScope node.type? node
  obtain ⟨assignableName, hassignableName⟩ := hrule.assignableName node
  obtain ⟨methodName, hmethodName⟩ := hrule.methodName node
  refine ⟨⟨node.type?, node.line, lloc, cyclomatic, operators, operands, opens, .null,
    assignableName, methodName⟩, hlines, hbranches, ?_⟩
  have hassignable : (standard.lookup node.type?).assignableNameFor node = .ok assignableName :=
    hassignableName
  have hmethod : (standard.lookup node.type?).methodNameFor node = .ok methodName := hmethodName
  simp only [Contribution.of, Rule.operatorsFor, Rule.operandsFor, hlloc, hcyclomatic, hoperators,
    hoperands, hopens, hassignable, hmethod, bind, Except.bind]
  cases (standard.lookup node.type?).dependencyFor node <;> rfl

/-- What a node contributes, or why it cannot be worked out. -/
theorem contribution_cases (flags : Flags) (node : Value) :
    (FailingRequire node ∧
        Contribution.of .standard flags node = .error (orderFault (node.prop "arguments"))) ∨
      (¬FailingRequire node ∧ ∃ c, Contribution.of .standard flags node = .ok c ∧
        (c.lloc = .int 0 ∨ c.lloc = .int 1 ∨ c.lloc = .int 2) ∧
        (c.cyclomatic = .int 0 ∨ c.cyclomatic = .int 1) ∧
        (RequireCall node → ∃ path, c.dependency = dependency node "CommonJS" path ∧
          RequiredPath node path)) := by
  obtain ⟨c, hlines, hbranches, hof⟩ := contribution_of_standard flags node
  rw [hof]
  rcases dependencyFor_standard node with ⟨hfail, hd⟩ | ⟨hgood, d, hd, hpath⟩
  · exact .inl ⟨hfail, by rw [hd]; rfl⟩
  · exact .inr ⟨hgood, { c with dependency := d }, by rw [hd]; rfl, hlines, hbranches, hpath⟩

theorem contribution_eq_error_iff {flags : Flags} {node : Value} {fault : Fault} :
    Contribution.of .standard flags node = .error fault ↔
      FailingRequire node ∧ fault = orderFault (node.prop "arguments") := by
  rcases contribution_cases flags node with ⟨hfail, hc⟩ | ⟨hgood, c, hc, -⟩
  · rw [hc]
    constructor
    · intro h
      cases h
      exact ⟨hfail, rfl⟩
    · rintro ⟨-, rfl⟩
      rfl
  · rw [hc]
    exact ⟨nofun, fun h => absurd h.1 hgood⟩

end Grammar

end Estree
