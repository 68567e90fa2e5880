import Estree.Proofs.Grammar.Styles
import Estree.Proofs.Trace.Lines
import Estree.Proofs.Walk.Nesting

/-!
Trees of the same content.

If the children of a node are looked up under text and no scope is worked out, a walk
reports the same of all trees with one content, `describeTree_content`.  What the nodes
contribute is the same too where the nodes met are portable, so the traces are, whether
they come to an end or not: `style_unseen`.
-/

namespace Estree

namespace Walk

def Occurrence.content (o : Occurrence) : Occurrence := ⟨o.place, o.node.content⟩

/-- The event at the content of its node. -/
def Event.content (e : Event) : Event := ⟨e.signal, e.occurrence.content⟩

def Report.content (r : Report) : Report := ⟨r.events.map Event.content, r.fault⟩

theorem Report.content_append (a b : Report) : (a ++ b).content = a.content ++ b.content := by
  cases ha : a.fault with
  | some fault =>
    have ha' : a.content.fault = some fault := ha
    rw [append_of_some ha, append_of_some ha']
  | none =>
    have ha' : a.content.fault = none := ha
    rw [append_of_none ha, append_of_none ha']
    simp only [content, List.map_append]

theorem content_entering (opens : Bool) (o : Occurrence) :
    (entering opens o).map Event.content = entering opens o.content := by
  cases opens <;> rfl

theorem content_leaving (opens : Bool) (o : Occurrence) :
    (leaving opens o).map Event.content = leaving opens o.content := by
  cases opens <;> rfl

variable {g : Grammar}

theorem ruleOf_content (g : Grammar) (v : Value) : ruleOf g v.content = ruleOf g v := by
  rw [ruleOf, Value.type?_content, ruleOf]

theorem map_child_content (o : Occurrence) (cs : List (Slot × Value)) :
    (cs.map fun c => (c.1, c.2.content)).map o.content.child =
      (cs.map o.child).map Occurrence.content := by
  rw [List.map_map, List.map_map]
  rfl

theorem children_content {r : Rule} (h : r.isStatic = true) (o : Occurrence) :
    o.content.children r = (o.children r).map (List.map Occurrence.content) := by
  simp only [Rule.isStatic, Bool.and_eq_true, List.all_eq_true] at h
  have hchildren : r.childrenOf o.node.content = _ := Value.childrenFrom_content h.1 o.node 0
  show (r.childrenOf o.node.content).map _ = ((r.childrenOf o.node).map _).map _
  rw [hchildren]
  show _ = ((o.node.childrenFrom 0 r.children).map _).map _
  cases o.node.childrenFrom 0 r.children with
  | error fault => rfl
  | ok cs => exact congrArg Except.ok (map_child_content o cs)

theorem roots_content (tree : Value) :
    roots tree.content = (roots tree).map Occurrence.content := by
  rw [roots, Value.prop_content, Value.nodesAt_content]
  exact map_child_content ⟨[], tree⟩ _

theorem describeAll_content {os : List Occurrence}
    (h : ∀ o ∈ os, describe g o.content = (describe g o).content) :
    describeAll g (os.map Occurrence.content) = (describeAll g os).content := by
  induction os with
  | nil => rfl
  | cons o os ih =>
    rw [List.map_cons, describeAll_cons, describeAll_cons, h o List.mem_cons_self,
      ih fun o' ho => h o' (List.mem_cons_of_mem _ ho), Report.content_append]

/-- No rule of a grammar works anything out that a walk asks of it. -/
def Static (g : Grammar) : Prop := ∀ type r, g.rule? type = some r → r.isStatic = true

theorem isStatic_of_ruleOf (hg : Static g) {v : Value} {r : Rule} (rule : ruleOf g v = some r) :
    r.isStatic = true := by
  obtain ⟨type, -, htype⟩ := Option.bind_eq_some_iff.mp rule
  exact hg type r htype

theorem describe_content (hg : Static g) (o : Occurrence) :
    describe g o.content = (describe g o).content := by
  induction o using visit_induction g with
  | skip o rule =>
    have rule' : ruleOf g o.content.node = none := (ruleOf_content g o.node).trans rule
    rw [describe_skip rule, describe_skip rule']
    rfl
  | scopeFault o r fault rule scope =>
    rw [Rule.opensScope_ok (isStatic_of_ruleOf hg rule)] at scope
    cases scope
  | childFault o r opens fault rule scope found =>
    obtain ⟨cs, hcs⟩ := Rule.childrenOf_ok (isStatic_of_ruleOf hg rule) o.node
    rw [Occurrence.children_eq_ok.mpr ⟨cs, hcs, rfl⟩] at found
    cases found
  | descend o r opens os rule scope found ih =>
    have hstatic := isStatic_of_ruleOf hg rule
    have rule' : ruleOf g o.content.node = some r := (ruleOf_content g o.node).trans rule
    have scope' : r.opensScope o.content.node = .ok opens := by
      rw [Rule.opensScope_ok hstatic, ← scope, Rule.opensScope_ok hstatic]
    have found' : o.content.children r = .ok (os.map Occurrence.content) := by
      rw [children_content hstatic, found]
      rfl
    rw [describe_descend rule scope found, describe_descend rule' scope' found',
      describeAll_content ih, Report.content_append, Report.content_append]
    simp only [Report.content, content_entering, content_leaving]

theorem describeTree_content (hg : Static g) (tree : Value) :
    describeTree g tree.content = (describeTree g tree).content := by
  rw [describeTree_eq, roots_content, describeAll_content fun o _ => describe_content hg o,
    describeTree_eq]

/-- What holds everywhere in a node holds everywhere in the nodes that are met. -/
theorem everywhere_describe {p : Value → Bool} (hnull : p .null = true) (o : Occurrence)
    (h : (describe g o).fault = none) :
    o.node.everywhere p = true → ∀ e ∈ (describe g o).events, e.node.everywhere p = true := by
  induction o, h using complete_induction g with
  | skip o h rule hd =>
    intro _ e he
    rw [hd] at he
    cases he
  | descend o h r opens os rule scope found hd hos ih =>
    intro ho e he
    rw [hd, List.mem_append, List.mem_append, List.mem_flatMap] at he
    rcases he with (he | ⟨c, hc, he⟩) | he
    · rw [Event.node, occurrence_of_mem_entering he]
      exact ho
    · refine ih c hc ?_ e he
      obtain ⟨cs, hcs, rfl⟩ := Occurrence.children_eq_ok.mp found
      obtain ⟨d, hd, rfl⟩ := List.mem_map.mp hc
      exact Value.everywhere_of_mem_childrenFrom hnull ho hcs hd
    · rw [Event.node, occurrence_of_mem_leaving he]
      exact ho

theorem everywhere_describeTree {p : Value → Bool} (hnull : p .null = true) {tree : Value}
    (h : (describeTree g tree).fault = none) (htree : tree.everywhere p = true) :
    ∀ e ∈ (describeTree g tree).events, e.node.everywhere p = true := by
  intro e he
  rw [events_describeTree h] at he
  obtain ⟨o, ho, he⟩ := List.mem_flatMap.mp he
  have hroot : o.node.everywhere p = true := by
    obtain ⟨c, hc, rfl⟩ := List.mem_map.mp ho
    exact Value.everywhere_of_mem_nodesAt (Value.everywhere_prop hnull htree _) hc
  exact everywhere_describe hnull o (describeTree_fault_eq_none.mp h o ho) hroot e he

/-- The standard grammar is static, so nothing fails in a walk with it. -/
theorem static_standard : Static .standard := fun _ _ h => Grammar.isStatic_of_standard h

theorem describeTree_standard_fault (tree : Value) :
    (describeTree .standard tree).fault = none :=
  describeTree_fault_of_evaluates fun _ node _ _ => evaluates_standard node

end Walk

namespace Contribution

variable {P : Value → Prop} {g : Grammar} {flags : Flags}

/-- The contribution with objects of one content taken for the same. -/
def content (c : Contribution) : Contribution := { c with
  lloc := c.lloc.content
  cyclomatic := c.cyclomatic.content
  operators := c.operators.map Value.content
  operands := c.operands.map Value.content
  dependency := c.dependency.content
  assignableName := c.assignableName.content
  methodName := c.methodName.content }

theorem of_content {node : Value} (hsteady : (g.lookup node.type?).Steady P)
    (hstatic : (g.lookup node.type?).isStatic = true) (hP : P node) :
    Contribution.of g flags node.content = (Contribution.of g flags node).map content := by
  simp only [of, Value.type?_content, Value.line_content, Rule.llocFor, Rule.cyclomaticFor,
    Rule.operatorsFor, Rule.operandsFor, Rule.dependencyFor, Rule.assignableNameFor,
    Rule.methodNameFor, Rule.opensScope_ok hstatic, hsteady.lloc.eval hP,
    hsteady.cyclomatic.eval hP, Mark.resolveAll_content hsteady.operators hP,
    Mark.resolveAll_content hsteady.operands hP, hsteady.dependencies.call hP,
    hsteady.assignableName.call hP, hsteady.methodName.call hP]
  refine Logged.bind_map_map fun lloc => Logged.bind_map_map fun cyclomatic => ?_
  refine Logged.bind_map_map fun operators => Logged.bind_map_map fun operands => ?_
  show _ = Except.map _ (_ >>= _)
  refine Logged.bind_map_map fun dependency => Logged.bind_map_map fun assignableName => ?_
  exact Logged.bind_map_map fun methodName => rfl

theorem of_standard_content {node : Value} (h : Grammar.Portable node) :
    Contribution.of .standard flags node.content =
      (Contribution.of .standard flags node).map content := by
  cases rule : Walk.ruleOf .standard node with
  | none =>
    have hlookup := Walk.lookup_of_ruleOf_eq_none rule
    refine of_content (P := fun _ => True) ?_ ?_ trivial
    · rw [hlookup]
      exact Rule.steady_default
    · rw [hlookup]
      rfl
  | some r =>
    have hlookup := Walk.lookup_of_ruleOf rule
    obtain ⟨type, htype, hrule⟩ := Option.bind_eq_some_iff.mp rule
    refine of_content (P := Grammar.PortableAs type) ?_ ?_ ⟨?_, h⟩
    · rw [hlookup]
      exact Grammar.steady_standard hrule
    · rw [hlookup]
      exact Grammar.isStatic_of_standard hrule
    · rw [Value.isA, htype]
      exact beq_self_eq_true _

end Contribution

namespace Trace

open Walk Grammar

variable {g : Grammar} {flags : Flags}

/-- The line with objects of one content taken for the same. -/
def Line.content (l : Line) : Line := { l with
  occurrence := l.occurrence.content
  contribution := l.contribution.map Contribution.content }

theorem Line.of_content {e : Event} (h : e.signal = .visit → Portable e.node) (depth : Int) :
    Line.of .standard flags depth e.content =
      (Line.of .standard flags depth e).map Line.content := by
  obtain ⟨signal, o⟩ := e
  cases signal with
  | enter => rfl
  | visit =>
    have hnode : Contribution.of .standard flags (Event.node ⟨.visit, o⟩).content = _ :=
      Contribution.of_standard_content (h rfl)
    show (Contribution.of .standard flags o.node.content).map _ = _
    rw [show o.node = Event.node ⟨.visit, o⟩ from rfl, hnode]
    cases hc : Contribution.of .standard flags (Event.node ⟨.visit, o⟩) with
    | error fault => simp only [Line.of, hc]; rfl
    | ok c => simp only [Line.of, hc]; rfl
  | leave => rfl

/-- Events of the same content have lines of the same content, as long as the nodes are
portable that the recorder comes to. -/
theorem linesOf_alike {es es' : List Event} (h : es.map Event.content = es'.map Event.content)
    (t : Trace)
    (hes : ∀ e ∈ taken (record .standard flags) t es, e.signal = .visit → Portable e.node) :
    (linesOf .standard flags t.depth es).map (List.map Line.content) =
      (linesOf .standard flags t.depth es').map (List.map Line.content) := by
  induction es generalizing es' t with
  | nil =>
    obtain rfl := List.map_eq_nil_iff.mp h.symm
    rfl
  | cons e es ih =>
    obtain ⟨e', es', rfl, he, hrest⟩ := List.map_eq_cons_iff.mp h.symm
    obtain ⟨hsignal, hoccurrence⟩ := Event.mk.inj he
    have hnode : e'.node.content = e.node.content := (Occurrence.mk.inj hoccurrence).2
    have hp : e.signal = .visit → Portable e.node := by
      refine hes e ?_
      simp only [taken]
      rcases record .standard flags t e with ⟨next, _ | fault⟩ <;> exact List.mem_cons_self
    have hp' : e'.signal = .visit → Portable e'.node := by
      intro hvisit
      rw [← portable_content, hnode, portable_content]
      exact hp (hsignal ▸ hvisit)
    have hline : (Line.of .standard flags t.depth e).map Line.content =
        (Line.of .standard flags t.depth e').map Line.content := by
      rw [← Line.of_content hp, ← Line.of_content hp', he]
    have hdepth : depthAfter t.depth e' = depthAfter t.depth e := by
      rw [depthAfter, hsignal, depthAfter]
    rw [linesOf_cons, linesOf_cons, hdepth]
    refine Logged.map_bind_congr hline fun l l' hl hcontent => ?_
    have hrecord : record .standard flags t e =
        (⟨depthAfter t.depth e, t.lines.push l⟩, none) := by rw [record_eq, hl]
    have hmore := ih hrest.symm ⟨depthAfter t.depth e, t.lines.push l⟩ fun d hd =>
      hes d (by simp only [taken, hrecord]; exact List.mem_cons_of_mem e hd)
    have hpush : ∀ (l : Line) (x : Except Fault (List Line)),
        (x.map (l :: ·)).map (List.map Line.content) =
          (x.map (List.map Line.content)).map (l.content :: ·) := by
      intro l x
      cases x <;> rfl
    rw [hpush, hpush, hmore, hcontent]

/-- What is read of a tree on the way to its trace has no style. -/
structure PortableTree (flags : Flags) (tree : Value) : Prop where
  read : tree.everywhere plainlyRead = true
  named : ∀ e ∈ calls .standard tree (record .standard flags) .empty, e.signal = .visit →
    PlainlyNamed e.node

theorem PortableTree.of_literals {tree : Value} (h : tree.everywhere plainlyRead = true)
    (hliterals : tree.everywhere plainLiteral = true) : PortableTree flags tree := by
  refine ⟨h, fun e he _ => plainlyNamed_of_everywhere ?_⟩
  have hcalls := calls_prefix .standard tree (record .standard flags) .empty
  exact everywhere_describeTree rfl (describeTree_standard_fault tree) hliterals e
    (hcalls.subset he)

theorem describeTree_alike {tree tree' : Value} (h : tree.content = tree'.content) :
    (describeTree .standard tree).content = (describeTree .standard tree').content := by
  rw [← describeTree_content static_standard, h, describeTree_content static_standard]

theorem ofTree_standard_eq (flags : Flags) (tree : Value) :
    ofTree .standard flags tree =
      linesOf .standard flags 0 (describeTree .standard tree).events := by
  rw [ofTree_eq, describeTree_standard_fault]
  cases linesOf .standard flags 0 (describeTree .standard tree).events <;> rfl

theorem ofTree_alike {tree tree' : Value} (h : tree.content = tree'.content)
    (hp : PortableTree flags tree) :
    (ofTree .standard flags tree).map (List.map Line.content) =
      (ofTree .standard flags tree').map (List.map Line.content) := by
  rw [ofTree_standard_eq, ofTree_standard_eq]
  refine linesOf_alike (congrArg Report.events (describeTree_alike h)) .empty fun e he hvisit => ?_
  have htaken := taken_prefix (record .standard flags) .empty (describeTree .standard tree).events
  refine ⟨everywhere_describeTree rfl (describeTree_standard_fault tree) hp.read e
    (htaken.subset he), ?_⟩
  exact hp.named e (by rw [calls_eq_taken]; exact he) hvisit

/-- With the standard grammar, trees of one content have one trace, failing or not, if no
object stands where one is spelled out, no empty one where one is tested, and none as
arguments.  What a walk reports is the same for all of them.  A tree keeps its content in
whatever styles its objects are, one style for each depth among them. -/
theorem style_unseen (flags : Flags) (tree : Value) :
    (PortableTree flags tree → ∀ other : Value, other.content = tree.content →
      (ofTree .standard flags other).map (List.map Line.content) =
        (ofTree .standard flags tree).map (List.map Line.content)) ∧
    (∀ other : Value, other.content = tree.content →
      (report .standard other).events.map Event.content =
          (report .standard tree).events.map Event.content ∧
        (report .standard other).fault = none ∧ (report .standard tree).fault = none) ∧
    ∀ style, (tree.styled style 0).content = tree.content := by
  refine ⟨fun hp other h => (ofTree_alike h.symm hp).symm, fun other h => ?_,
    fun style => Value.content_styled tree style 0⟩
  simp only [report_eq_describeTree, describeTree_standard_fault, and_true]
  have hsame := describeTree_alike h
  exact congrArg Report.events hsame

/-- An assignment to a computed member, with attributes for properties. -/
theorem style_unseen_assignment :
    let identifier : Value := .mapping [("type", .text "Identifier"), ("name", .text "a")]
    let literal : Value := .mapping [("type", .text "Literal"), ("value", .text "b")]
    let left : Value := .mapping
      [("type", .text "MemberExpression"), ("object", identifier), ("property", literal)]
    let tree : Value := .mapping [("type", .text "Program"), ("body", .list [.mapping
      [("type", .text "AssignmentExpression"), ("operator", .text "="), ("left", left),
        ("right", literal)]])]
    PortableTree .none tree ∧
      (ofTree .standard .none (tree.styled (fun _ => .record) 0)).map (List.map Line.content) =
        (ofTree .standard .none tree).map (List.map Line.content) := by
  intro identifier literal left tree
  have hportable : PortableTree .none tree :=
    PortableTree.of_literals (by decide +kernel) (by decide +kernel)
  have hcontent := (style_unseen .none tree).2.2 fun _ => .record
  exact ⟨hportable, (style_unseen .none tree).1 hportable _ hcontent⟩

end Trace

end Estree
