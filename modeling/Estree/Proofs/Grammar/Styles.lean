import Estree.Proofs.Grammar.Layers
import Estree.Proofs.Rule.Fields
import Estree.Proofs.Value.Name

/-!
The rules of the standard grammar and the styles of objects.

A rule may show the properties of a node, and then it shows the content of them.  Where
it spells a property out, or asks whether it is true, the style could be seen: a node is
`Portable` if no object stands there.  For such nodes every rule of the standard grammar
answers alike in all styles, `steady_standard`.
-/

namespace Estree

/-! ### Entries that answer alike -/

namespace Entry

variable {P : Value → Prop}

/-- A test that comes out the same for a value and for its content. -/
def Firm (P : Value → Prop) (e : Entry) : Prop := ∀ v, P v → e.call v.content = e.call v

/-- An entry that answers for the content of a value with the content of its answer. -/
inductive Steady (P : Value → Prop) : Entry → Prop where
  | data {v : Value} (free : v.objectFree = true) : Steady P (.data v)
  | computed {f : NodeFn}
    (answer : ∀ v flags, P v → f v.content flags = (f v flags).map Value.content) :
    Steady P (.computed f)
  | list {items : List Entry} (members : ∀ e ∈ items, Steady P e) : Steady P (.list items)
  | mapping {fields : List (Text × Entry)} (members : ∀ field ∈ fields, Steady P field.2)
    (filter : ∀ e, fields.lookup ("filter" : Text) = some e → Firm P e) :
    Steady P (.mapping fields)

theorem firm_absent : Firm P .absent := fun _ _ => rfl

theorem steady_absent : Steady P .absent := .data rfl

theorem shownList_eq (items : List Entry) : shownList items = items.map shown := by
  induction items with
  | nil => rfl
  | cons e rest ih => rw [shownList, ih, List.map_cons]

theorem shownFields_eq (fields : List (Text × Entry)) :
    shownFields fields = fields.map fun field => (field.1, field.2.shown) := by
  induction fields with
  | nil => rfl
  | cons field rest ih => rw [shownFields, ih, List.map_cons]

namespace Steady

theorem content_shown {e : Entry} (h : e.Steady P) : e.shown.content = e.shown := by
  induction h with
  | data free => exact Value.content_of_objectFree free
  | computed _ => rfl
  | list _ ih =>
    rw [shown, shownList_eq, Value.content_list, List.map_map]
    exact congrArg Value.list (List.map_congr_left ih)
  | mapping _ _ ih =>
    rw [shown, shownFields_eq, Value.content_object, List.map_map]
    refine congrArg Value.mapping (List.map_congr_left fun field hfield => ?_)
    exact Prod.ext rfl (ih field hfield)

theorem eval {e : Entry} (h : e.Steady P) {v : Value} (hv : P v) (flags : Flags) :
    e.eval v.content flags = (e.eval v flags).map Value.content := by
  cases h with
  | computed answer => exact answer v flags hv
  | data free => exact congrArg Except.ok (content_shown (P := P) (.data free)).symm
  | list members => exact congrArg Except.ok (content_shown (.list members)).symm
  | mapping members filter =>
    exact congrArg Except.ok (content_shown (.mapping members filter)).symm

theorem call {e : Entry} (h : e.Steady P) {v : Value} (hv : P v) :
    e.call v.content = (e.call v).map Value.content := by
  cases h with
  | computed answer => exact answer v .none hv
  | @data w free => cases w <;> rfl
  | list members => rfl
  | mapping members filter => rfl

theorem of_mem_members {e : Entry} (h : e.Steady P) : ∀ m ∈ e.members, m.Steady P := by
  cases h with
  | @data v free =>
    intro m hm
    obtain ⟨w, hw, rfl⟩ := List.mem_map.mp hm
    refine .data ?_
    cases v with
    | null => cases hw
    | list items => exact Value.everywhere_item free w hw
    | _ => rw [List.mem_singleton.mp hw]; exact free
  | computed answer => exact fun m hm => List.mem_singleton.mp hm ▸ .computed answer
  | list members => exact members
  | mapping members filter =>
    exact fun m hm => List.mem_singleton.mp hm ▸ .mapping members filter

theorem of_lookup {fields : List (Text × Entry)} (h : ∀ field ∈ fields, field.2.Steady P)
    (name : Text) : ((fields.lookup name).getD .absent).Steady P := by
  cases hl : fields.lookup name with
  | none => exact steady_absent
  | some e => exact h (name, e) (Entries.mem_of_lookup hl)

end Steady

end Entry

/-! ### Marks and rules that answer alike -/

section Steady

variable {P : Value → Prop}

structure Mark.Steady (P : Value → Prop) (m : Mark) : Prop where
  identifier : m.identifier.Steady P
  resolve : m.resolve.Steady P
  filter : m.filter.Firm P

theorem Mark.steady_tag {e : Entry} (h : e.Steady P) : (Mark.tag e).Steady P :=
  ⟨h, Entry.steady_absent, Entry.firm_absent⟩

theorem Mark.steady_ofEntry {e : Entry} (h : e.Steady P) : (Mark.ofEntry e).Steady P := by
  cases h with
  | @data v free =>
    cases v with
    | object style fields => cases Value.everywhere_self free
    | _ => exact steady_tag (.data free)
  | computed answer => exact ⟨Entry.steady_absent, .computed answer, Entry.firm_absent⟩
  | list members => exact steady_tag (.list members)
  | @mapping fields members filter =>
    simp only [ofEntry, Entry.fields?, Option.bind_some, ofFields?]
    split
    · refine ⟨.of_lookup members _, .of_lookup members _, ?_⟩
      show ((fields.lookup ("filter" : Text)).getD .absent).Firm P
      cases hl : fields.lookup ("filter" : Text) with
      | none => exact Entry.firm_absent
      | some e => exact filter e hl
    · exact steady_tag (.mapping members filter)

theorem Mark.Steady.appliesTo {m : Mark} (h : m.Steady P) {v : Value} (hv : P v) :
    m.appliesTo v.content = m.appliesTo v := by
  rw [Mark.appliesTo, Mark.appliesTo, h.filter v hv]

theorem Mark.Steady.resolveFor {m : Mark} (h : m.Steady P) {v : Value} (hv : P v) :
    m.resolveFor v.content = (m.resolveFor v).map Value.content := by
  rw [Mark.resolveFor, Mark.resolveFor]
  split
  · exact congrArg Except.ok h.identifier.content_shown.symm
  · exact h.resolve.call hv

theorem Mark.resolveAll_content {ms : List Mark} (h : ∀ m ∈ ms, m.Steady P) {v : Value}
    (hv : P v) :
    Mark.resolveAll ms v.content = (Mark.resolveAll ms v).map (List.map Value.content) := by
  induction ms with
  | nil => rfl
  | cons m ms ih =>
    have hm := h m List.mem_cons_self
    have hrest := ih fun m' hm' => h m' (List.mem_cons_of_mem _ hm')
    rw [resolveAll, resolveAll, hm.appliesTo hv]
    cases m.appliesTo v with
    | error fault => rfl
    | ok applies =>
      cases applies with
      | false => exact hrest
      | true =>
        show (m.resolveFor v.content >>= fun name => _) =
          Except.map _ (m.resolveFor v >>= fun name => _)
        rw [hm.resolveFor hv, hrest]
        cases m.resolveFor v with
        | error fault => rfl
        | ok name => cases resolveAll ms v <;> rfl

/-- A rule all of whose parts answer alike.  Its children and its scope do not depend on
the node. -/
structure Rule.Steady (P : Value → Prop) (r : Rule) : Prop where
  operators : ∀ m ∈ r.operators, m.Steady P
  operands : ∀ m ∈ r.operands, m.Steady P
  lloc : r.lloc.Steady P
  cyclomatic : r.cyclomatic.Steady P
  dependencies : r.dependencies.Steady P
  assignableName : r.assignableName.Steady P
  methodName : r.methodName.Steady P

theorem Rule.steady_default : Rule.default.Steady P where
  operators := List.forall_mem_nil _
  operands := List.forall_mem_nil _
  lloc := .data rfl
  cyclomatic := .data rfl
  dependencies := Entry.steady_absent
  assignableName := Entry.steady_absent
  methodName := Entry.steady_absent

theorem Rule.Steady.set {r : Rule} (h : r.Steady P) {e : Entry} (he : e.Steady P) (f : Field) :
    (r.set f e).Steady P := by
  have hmarks : ∀ m ∈ e.members.map Mark.ofEntry, m.Steady P := by
    intro m hm
    obtain ⟨e', he', rfl⟩ := List.mem_map.mp hm
    exact Mark.steady_ofEntry (he.of_mem_members e' he')
  cases f with
  | children => exact { h with }
  | operators => exact { h with operators := hmarks }
  | operands => exact { h with operands := hmarks }
  | lloc => exact { h with lloc := he }
  | cyclomatic => exact { h with cyclomatic := he }
  | newScope => exact { h with }
  | dependencies => exact { h with dependencies := he }
  | assignableName => exact { h with assignableName := he }
  | methodName => exact { h with methodName := he }

theorem Rule.steady_ofFields {fields : List (Text × Entry)}
    (h : ∀ field ∈ fields, field.2.Steady P) : (Rule.ofFields fields).Steady P :=
  Rule.ofFields_keeps steady_default fun _ hr field hfield f _ => hr.set (h field hfield) f

end Steady

/-! ### Nodes that read alike -/

namespace Grammar

open Value (content content_of_objectFree truthy_content)

/-- The properties that rules spell out. -/
def spelled : List Text := ["name", "operator", "prefix", "delegate"]

/-- The properties of which rules ask whether they are true. -/
def tested : List Text := ["test", "alternate"]

/-- The types with the properties whose names their rules take. -/
def named : List (Text × Text) := [
  ("AssignmentExpression", "left"),
  ("Property", "key"),
  ("VariableDeclarator", "id"),
  ("AssignmentPattern", "left"),
  ("ExportSpecifier", "local"),
  ("ExportSpecifier", "exported"),
  ("ImportSpecifier", "imported"),
  ("ImportSpecifier", "local"),
  ("MethodDefinition", "key"),
  ("PropertyDefinition", "key")]

/-- Nothing that is read of a value itself has its style in view. -/
def plainlyRead (v : Value) : Bool :=
  spelled.all (fun name => (v.prop name).objectFree) &&
    tested.all (fun name => !(v.prop name).isEmptyObject) && !(v.prop "arguments").isObject

/-- No literal that gives its value to a name of the node holds an object. -/
def PlainlyNamed (v : Value) : Prop :=
  ∀ e ∈ named, v.isA e.1 = true → ∀ leaf ∈ (v.prop e.2).leaves, leaf.isA "Literal" = true →
    (leaf.prop "value").objectFree = true

structure Portable (v : Value) : Prop where
  read : v.everywhere plainlyRead = true
  named : PlainlyNamed v

theorem plainlyRead_content (v : Value) : plainlyRead v.content = plainlyRead v := by
  simp only [plainlyRead, Value.prop_content, Value.objectFree_content,
    Value.isEmptyObject_content, Value.isObject_content]

theorem plainlyNamed_content {v : Value} : PlainlyNamed v.content ↔ PlainlyNamed v := by
  simp only [PlainlyNamed, Value.isA_content, Value.prop_content, Value.leaves_content,
    List.forall_mem_map, Value.objectFree_content]

theorem portable_content {v : Value} : Portable v.content ↔ Portable v := by
  have hread := Value.everywhere_content plainlyRead_content v
  constructor
  · rintro ⟨h, hnamed⟩
    exact ⟨hread ▸ h, plainlyNamed_content.mp hnamed⟩
  · rintro ⟨h, hnamed⟩
    exact ⟨hread ▸ h, plainlyNamed_content.mpr hnamed⟩

/-- A literal whose value could be part of a name without its style being seen. -/
def plainLiteral (v : Value) : Bool := !v.isA "Literal" || (v.prop "value").objectFree

theorem plainlyNamed_of_everywhere {v : Value} (h : v.everywhere plainLiteral = true) :
    PlainlyNamed v := by
  intro e _ _ leaf hleaf hliteral
  have hprop := Value.everywhere_prop rfl h e.2
  have hself := Value.everywhere_self (Value.everywhere_of_mem_leaves rfl hprop leaf hleaf)
  rw [plainLiteral, hliteral] at hself
  exact hself

section Portable

variable {v : Value}

theorem content_spelled (h : v.everywhere plainlyRead = true) {name : Text}
    (hname : name ∈ spelled) : (v.prop name).content = v.prop name := by
  have hself := Value.everywhere_self h
  simp only [plainlyRead, Bool.and_eq_true, List.all_eq_true] at hself
  exact content_of_objectFree (hself.1.1 name hname)

theorem truthy_tested (h : v.everywhere plainlyRead = true) {name : Text}
    (hname : name ∈ tested) : (v.prop name).content.truthy = (v.prop name).truthy := by
  have hself := Value.everywhere_self h
  simp only [plainlyRead, Bool.and_eq_true, List.all_eq_true, Bool.not_eq_true'] at hself
  exact truthy_content (hself.1.2 name hname)

theorem plainlyCalled_of_mem_leaves (h : Portable v) {type name : Text}
    (hnamed : (type, name) ∈ named) (hv : v.isA type = true) :
    ∀ leaf ∈ (v.prop name).leaves, leaf.PlainlyCalled := by
  intro leaf hleaf
  have hread :=
    Value.everywhere_of_mem_leaves rfl (Value.everywhere_prop rfl h.read name) leaf hleaf
  have hself := Value.everywhere_self hread
  simp only [plainlyRead, Bool.and_eq_true, List.all_eq_true] at hself
  exact ⟨hself.1.1 "name" List.mem_cons_self, h.named (type, name) hnamed hv leaf hleaf⟩

theorem name_prop_content (h : Portable v) {type name : Text} (hnamed : (type, name) ∈ named)
    (hv : v.isA type = true) :
    (v.content.prop name).name Value.anonymous = (v.prop name).name Value.anonymous ∧
      ((v.prop name).name Value.anonymous).content = (v.prop name).name Value.anonymous := by
  have hleaves := plainlyCalled_of_mem_leaves h hnamed hv
  rw [Value.prop_content]
  exact ⟨Value.name_content hleaves _, Value.content_name hleaves rfl⟩

theorem isText_content (v : Value) (s : Text) : isText v.content s = isText v s := by
  cases v with
  | list items => rw [Value.content_list]; rfl
  | object style fields => rw [Value.content_object]; rfl
  | _ => rfl

theorem dependency_content (v : Value) (type : Text) (path : Value) :
    dependency v.content type path.content = (dependency v type path).content := by
  simp [dependency]

theorem literalOperand_eq (v : Value) :
    literalOperand v =
      ((v.prop "value").text?.map fun s => Value.text ("\"" ++ s ++ "\"")).getD
        (if hasProp "regex" v then v.prop "raw" else v.prop "value") := by
  simp only [literalOperand]
  cases v.prop "value" <;> rfl

theorem firstArgument_content {v : Value} (h : v.isObject = false) :
    firstArgument v.content = (firstArgument v).map content := by
  have htruthy : v.content.truthy = v.truthy := by
    refine truthy_content ?_
    cases v with
    | object style fields => cases h
    | _ => rfl
  unfold firstArgument
  rw [htruthy]
  split
  · cases v with
    | list items =>
      rw [Value.content_list]
      cases items <;> rfl
    | object style fields => cases h
    | _ => rfl
  · rfl

theorem requireDependency_content (h : v.everywhere plainlyRead = true) :
    requireDependency v.content = (requireDependency v).map content := by
  have hself := Value.everywhere_self h
  simp only [plainlyRead, Bool.and_eq_true, Bool.not_eq_true'] at hself
  simp only [requireDependency, Value.prop_content, Value.isA_content, isText_content]
  split
  · rw [firstArgument_content hself.2]
    cases firstArgument (v.prop "arguments") with
    | error fault => rfl
    | ok first =>
      show Except.ok _ = Except.ok _
      simp only [Value.isA_content, Value.prop_content, Value.text?_content, ← dependency_content]
      split <;> rfl
  · rfl

theorem truthy_test (h : v.everywhere plainlyRead = true) :
    (v.content.prop "test").truthy = (v.prop "test").truthy := by
  rw [Value.prop_content, truthy_tested h (List.mem_of_getElem? (i := 0) rfl)]

theorem renames_content (h : Portable v) {type first second : Text}
    (hfirst : (type, first) ∈ named) (hsecond : (type, second) ∈ named)
    (hv : v.isA type = true) : renames first second v.content = renames first second v := by
  rw [renames, (name_prop_content h hfirst hv).1, (name_prop_content h hsecond hv).1, renames]

end Portable

/-! ### The tables -/

/-- A node that has a type and is portable. -/
def PortableAs (type : Text) (v : Value) : Prop := v.isA type = true ∧ Portable v

section Tables

open Entry (Steady)

variable {P : Value → Prop}

theorem steady_fromNode {f : Value → Value} (h : ∀ v, P v → f v.content = (f v).content) :
    (fromNode f).Steady P :=
  .computed fun v _ hv => congrArg Except.ok (h v hv)

theorem steady_fromNodeAndFlags {f : Value → Flags → Value}
    (h : ∀ v flags, P v → f v.content flags = (f v flags).content) :
    (fromNodeAndFlags f).Steady P :=
  .computed fun v flags hv => congrArg Except.ok (h v flags hv)

theorem steady_word (s : Text) : (word s).Steady P := .data rfl

theorem steady_count (n : Int) : (count n).Steady P := .data rfl

theorem steady_true : (Entry.data (.bool true)).Steady P := .data rfl

theorem steady_names (ss : List Text) : (names ss).Steady P := by
  refine .list fun e he => ?_
  obtain ⟨s, -, rfl⟩ := List.mem_map.mp he
  exact steady_word s

theorem steady_flagBranch (flag : Text) : (flagBranch flag).Steady P :=
  steady_fromNodeAndFlags fun _ _ _ => rfl

theorem steady_prop (name : Text) : (fromNode fun node => node.prop name).Steady P :=
  steady_fromNode fun v _ => Value.prop_content v name

theorem steady_follow (names : List Text) : (fromNode fun node => node.follow names).Steady P :=
  steady_fromNode fun v _ => Value.follow_content v names

theorem steady_markIf {identifier : Text} {applies : Value → Bool}
    (h : ∀ v, P v → applies v.content = applies v) : (markIf identifier applies).Steady P := by
  refine .mapping ?_ ?_
  · refine List.forall_mem_cons.mpr ⟨steady_word identifier, ?_⟩
    refine List.forall_mem_cons.mpr ⟨steady_fromNode fun v hv => ?_, List.forall_mem_nil _⟩
    rw [h v hv]
    rfl
  · intro e he v hv
    obtain rfl : fromNode (fun node => .bool (applies node)) = e := Option.some.inj he
    show Except.ok (Value.bool _) = Except.ok (Value.bool _)
    rw [h v hv]

theorem steady_markIf_hasProp (identifier name : Text) :
    (markIf identifier (hasProp name)).Steady P := by
  refine steady_markIf fun v _ => ?_
  rw [hasProp, Value.prop_content, Value.isNull_content, hasProp]

theorem steady_ownNameIfAny : ownNameIfAny.Steady P := by
  refine .mapping ?_ ?_
  · refine List.forall_mem_cons.mpr ⟨steady_follow _, ?_⟩
    refine List.forall_mem_cons.mpr ⟨steady_fromNode fun v _ => ?_, List.forall_mem_nil _⟩
    rw [hasProp, Value.prop_content, Value.isNull_content]
    rfl
  · intro e he v _
    obtain rfl : fromNode (fun node => .bool (hasProp "id" node)) = e := Option.some.inj he
    show Except.ok (Value.bool (hasProp "id" v.content)) = Except.ok (Value.bool (hasProp "id" v))
    rw [hasProp, Value.prop_content, Value.isNull_content, hasProp]

variable {type : Text}

theorem steady_nameOf {name : Text} (h : (type, name) ∈ named) :
    (nameOf name).Steady (PortableAs type) := by
  refine steady_fromNode fun v hv => ?_
  obtain ⟨hname, hcontent⟩ := name_prop_content hv.2 h hv.1
  rw [hname, hcontent]

theorem steady_markIf_renames {identifier first second : Text} (hfirst : (type, first) ∈ named)
    (hsecond : (type, second) ∈ named) :
    (markIf identifier (renames first second)).Steady (PortableAs type) :=
  steady_markIf fun _ hv => renames_content hv.2 hfirst hsecond hv.1

theorem steady_oneIfProp_test : (fromNode (oneIfProp "test")).Steady (PortableAs type) := by
  refine steady_fromNode fun v hv => ?_
  rw [oneIfProp, truthy_test hv.2.read]
  rfl

theorem steady_inlineCall : (fromNode inlineCall).Steady P := by
  refine steady_fromNode fun v _ => ?_
  rw [inlineCall, Value.prop_content, Value.isA_content]
  rfl

theorem steady_inlineObject : (fromNode inlineObject).Steady P := by
  refine steady_fromNode fun v _ => ?_
  rw [inlineObject, Value.prop_content, Value.type?_content]
  rfl

theorem steady_logicalBranches : (fromNodeAndFlags logicalBranches).Steady P := by
  refine steady_fromNodeAndFlags fun v flags _ => ?_
  simp only [logicalBranches, Value.prop_content, isText_content]
  rfl

theorem steady_caseBranches : (fromNodeAndFlags caseBranches).Steady (PortableAs type) := by
  refine steady_fromNodeAndFlags fun v flags hv => ?_
  rw [caseBranches, truthy_test hv.2.read]
  rfl

theorem steady_caseOperator : (fromNode caseOperator).Steady (PortableAs type) := by
  refine steady_fromNode fun v hv => ?_
  rw [caseOperator, truthy_test hv.2.read]
  rfl

theorem steady_requireDependency :
    (Entry.computed fun node _ => requireDependency node).Steady (PortableAs type) :=
  .computed fun _ _ hv => requireDependency_content hv.2.read

theorem steady_importDependency : (fromNode importDependency).Steady P := by
  refine steady_fromNode fun v _ => ?_
  rw [importDependency, Value.follow_content, dependency_content]
  rfl

theorem steady_ownName : (fromNode ownName).Steady P := steady_follow ["id", "name"]

theorem steady_literalOperand : (fromNode literalOperand).Steady P := by
  refine steady_fromNode fun v _ => ?_
  rw [literalOperand_eq, literalOperand_eq, Value.prop_content, Value.text?_content]
  cases (v.prop "value").text? with
  | some s => rfl
  | none =>
    simp only [hasProp, Value.prop_content, Value.isNull_content, Option.map_none,
      Option.getD_none]
    exact (apply_ite content _ _ _).symm

theorem steady_dynamicImportDependency : (fromNode dynamicImportDependency).Steady P := by
  refine steady_fromNode fun v _ => ?_
  simp only [dynamicImportDependency, Value.prop_content, Value.isA_content, Value.text?_content,
    dependency_content]
  rw [apply_ite content]
  rfl

theorem steady_ifOperators :
    (Entry.list [word "if", markIf "else" (hasProp "alternate")]).Steady P := by
  refine .list (List.forall_mem_cons.mpr ⟨steady_word _, ?_⟩)
  exact List.forall_mem_cons.mpr ⟨steady_markIf_hasProp _ _, List.forall_mem_nil _⟩

theorem steady_ifLines : (fromNode ifLines).Steady (PortableAs type) := by
  refine steady_fromNode fun v hv => ?_
  have halternate : (v.prop "alternate").content.truthy = (v.prop "alternate").truthy :=
    truthy_tested hv.2.read (List.mem_of_getElem? (i := 1) rfl)
  rw [ifLines, Value.prop_content, halternate]
  rfl

theorem steady_fixOperator : (fromNode fixOperator).Steady (PortableAs type) := by
  refine steady_fromNode fun v hv => ?_
  have hoperator := content_spelled hv.2.read (List.mem_of_getElem? (i := 1) rfl)
  have hprefix := content_spelled hv.2.read (List.mem_of_getElem? (i := 2) rfl)
  rw [fixOperator, Value.prop_content, Value.prop_content, hoperator, hprefix]
  rfl

theorem steady_yieldOperator : (fromNode yieldOperator).Steady (PortableAs type) := by
  refine steady_fromNode fun v hv => ?_
  have hdelegate := content_spelled hv.2.read (List.mem_of_getElem? (i := 3) rfl)
  rw [yieldOperator, Value.prop_content, hdelegate]
  rfl

theorem steady_privateOperand : (fromNode privateOperand).Steady (PortableAs type) := by
  refine steady_fromNode fun v hv => ?_
  have hname := content_spelled hv.2.read (List.mem_of_getElem? (i := 0) rfl)
  rw [privateOperand, Value.prop_content, hname]
  rfl

theorem steady_metaOperand : (fromNode metaOperand).Steady (PortableAs type) := by
  refine steady_fromNode fun v hv => ?_
  have hname : ∀ name, (v.follow [name, "name"]).content = v.follow [name, "name"] := fun name =>
    content_spelled (Value.everywhere_prop rfl hv.2.read name) (List.mem_of_getElem? (i := 0) rfl)
  rw [metaOperand, Value.follow_content, Value.follow_content, hname, hname]
  rfl

theorem steady_of_mem_table (e : Edition) :
    ∀ row ∈ e.table, ∀ field ∈ row.2, field.2.Steady (PortableAs row.1) := by
  cases e
  all_goals
    simp (disch := decide) only [Edition.table, baseTable, es2015Table, es2017Table, es2020Table,
      es2022Table, nodeType, operatorProp, List.forall_mem_cons, List.not_mem_nil, false_imp_iff,
      implies_true, and_true, steady_word, steady_count, steady_true, steady_names,
      steady_flagBranch, steady_prop, steady_follow, steady_nameOf, steady_markIf_hasProp,
      steady_markIf_renames, steady_ownName, steady_ownNameIfAny, steady_oneIfProp_test,
      steady_inlineCall, steady_inlineObject, steady_logicalBranches, steady_caseBranches,
      steady_caseOperator, steady_ifLines, steady_ifOperators, steady_fixOperator,
      steady_literalOperand, steady_yieldOperator, steady_privateOperand, steady_metaOperand,
      steady_requireDependency, steady_importDependency, steady_dynamicImportDependency]

/-- Every rule of the standard grammar answers alike for a portable node of its type. -/
theorem steady_standard {type : Text} {r : Rule} (h : standard.rule? type = some r) :
    r.Steady (PortableAs type) := by
  obtain ⟨e, fields, hrow, rfl⟩ := rule?_standard_eq_some.mp h
  exact Rule.steady_ofFields (steady_of_mem_table e (type, fields) hrow)

end Tables

end Grammar

end Estree
