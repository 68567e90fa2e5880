import Estree.Proofs.Trace.Faults
import Estree.Proofs.Walk.Turns

/-!
Dependencies in the order of the source.

Records come in the order in which their nodes are visited, each node before those below
it.  If the nodes of a tree start no sooner than those above them, and the nodes below each
stand one after another, the visiting order is that of the lines.  In a template it is not,
for the texts between its expressions are visited first; but texts depend on nothing.  Main
statement: `collected_in_source_order`.
-/

namespace Estree

/-- The line that a node starts on, 0 if it tells none. -/
def Value.lineNumber (v : Value) : Int := v.line.int?.getD 0

theorem Entry.eq_absent {e : Entry} (h : e.isAbsent = true) : e = .absent := by
  cases e with
  | data v =>
    cases v with
    | null => rfl
    | _ => cases h
  | _ => cases h

namespace Grammar

/-! ### What has dependencies -/

def dependentTypes : List Text := ["CallExpression", "ImportDeclaration", "ImportExpression"]

theorem dependencies_of_mem_table (e : Edition) : ∀ row ∈ e.table,
    (Rule.ofFields row.2).dependencies.isAbsent = true ∨ row.1 ∈ dependentTypes := by
  cases e <;> decide +kernel

theorem dependencyFor_eq_null {node : Value} (h : ∀ t ∈ dependentTypes, node.type? ≠ some t) :
    (standard.lookup node.type?).dependencyFor node = .ok .null := by
  cases hr : node.type?.bind standard.rule? with
  | none =>
    rw [lookup, hr]
    rfl
  | some r =>
    obtain ⟨t, ht, hrule⟩ := Option.bind_eq_some_iff.mp hr
    obtain ⟨e, fields, hrow, rfl⟩ := rule?_standard_eq_some.mp hrule
    rw [lookup, hr]
    rcases dependencies_of_mem_table e _ hrow with hnone | hmem
    · rw [Option.getD_some, Rule.dependencyFor, Entry.eq_absent hnone]
      rfl
    · exact absurd ht (h t hmem)

theorem line_of_dependencyFor {node d : Value}
    (h : (standard.lookup node.type?).dependencyFor node = .ok d) (hd : d ≠ .null) :
    d.prop "line" = node.line := by
  by_cases hmem : ∃ t ∈ dependentTypes, node.type? = some t
  · obtain ⟨t, ht, htype⟩ := hmem
    simp only [dependentTypes, List.mem_cons, List.not_mem_nil, or_false] at ht
    rcases ht with rfl | rfl | rfl
    · rw [dependencyFor_call (by rw [Value.isA, htype]; rfl), requireDependency] at h
      split at h
      · obtain ⟨first, -, h⟩ := Logged.bind_eq_ok.mp h
        cases h
        rfl
      · cases h
        exact absurd rfl hd
    · rw [htype, lookup, Option.bind_some, rule?_standard_of_row .es2015 11 rfl] at h
      cases h
      rfl
    · rw [htype, lookup, Option.bind_some, rule?_standard_of_row .es2020 1 rfl] at h
      change Except.ok (dynamicImportDependency node) = .ok d at h
      rw [dynamicImportDependency] at h
      split at h
      · cases h
        rfl
      · cases h
        exact absurd rfl hd
  · rw [dependencyFor_eq_null fun t ht htype => hmem ⟨t, ht, htype⟩] at h
    cases h
    exact absurd rfl hd

end Grammar

namespace Walk

variable {g : Grammar}

/-! ### Trees in the order of their lines -/

/-- Nothing that is met in the first node starts after the second. -/
def Precedes (g : Grammar) (c d : Occurrence) : Prop :=
  ∀ x ∈ met g c, x.node.lineNumber ≤ d.node.lineNumber

/-- Each of the nodes precedes the next. -/
def Successive (g : Grammar) (os : List Occurrence) : Prop := os.IsChain (Precedes g)

/-- The nodes that a property holds, where it is looked under after `n` others. -/
def Occurrence.held (o : Occurrence) (n : Nat) (name : Text) : List Occurrence :=
  ((o.node.prop name).nodesAt n).map o.child

/-- The nodes below a node follow one another.  In a template only the expressions do, and
the rest is text. -/
def InSequence (g : Grammar) (o : Occurrence) : Prop :=
  if o.node.isA "TemplateLiteral" then
    (∀ q ∈ o.held 0 "quasis", q.node.isA "TemplateElement" = true) ∧
      Successive g (o.held 1 "expressions")
  else Successive g (below g o)

/-- The nodes of a tree have lines, start no sooner than those above them, and follow one
another. -/
structure LineOrdered (g : Grammar) (tree : Value) : Prop where
  numbered : ∀ x ∈ metTree g tree, x.node.line.int?.isSome
  within : ∀ o ∈ metTree g tree, ∀ x ∈ met g o, o.node.lineNumber ≤ x.node.lineNumber
  body : Successive g (roots tree)
  children : ∀ o ∈ visitedTree g tree, InSequence g o

theorem inSequence_of_other {o : Occurrence} (h : o.node.isA "TemplateLiteral" = false)
    (hbelow : Successive g (below g o)) : InSequence g o := by
  rw [InSequence, h]
  exact hbelow

theorem self_mem_met (o : Occurrence) : o ∈ met g o := by
  rw [met_eq]
  exact List.mem_cons_self

theorem met_subset {o c : Occurrence} (hc : c ∈ below g o) : met g c ⊆ met g o := by
  intro x hx
  rw [met_eq g o]
  exact List.mem_cons_of_mem o (List.mem_flatMap.mpr ⟨c, hc, hx⟩)

theorem Precedes.trans {c d e : Occurrence} (hcd : Precedes g c d) (hde : Precedes g d e) :
    Precedes g c e := fun x hx => Int.le_trans (hcd x hx) (hde d (self_mem_met d))

theorem Successive.pairwise {os : List Occurrence} (h : Successive g os) :
    os.Pairwise (Precedes g) := by
  -- A node precedes all that come later, because it is met in itself.
  have : Trans (Precedes g) (Precedes g) (Precedes g) := ⟨Precedes.trans⟩
  exact List.IsChain.pairwise h

end Walk

namespace Dependencies

open Walk

/-! ### Records -/

/-- The records of two nodes, if both have one, are in the order of their lines. -/
def InOrder (x y : Occurrence) : Prop :=
  (recordOf .standard x.node).isSome → (recordOf .standard y.node).isSome →
    x.node.lineNumber ≤ y.node.lineNumber

theorem inOrder_flatMap {os : List Occurrence} (h : Successive .standard os)
    (hwithin : ∀ d ∈ os, ∀ y ∈ met .standard d, d.node.lineNumber ≤ y.node.lineNumber)
    (hos : ∀ c ∈ os, (met .standard c).Pairwise InOrder) :
    (os.flatMap (met .standard)).Pairwise InOrder := by
  refine List.pairwise_flatMap.mpr ⟨hos, h.pairwise.imp_of_mem ?_⟩
  intro c d _ hd hcd x hx y hy _ _
  exact Int.le_trans (hcd x hx) (hwithin d hd y hy)

theorem recordOf_of_type {node : Value} {type : Text} (ht : node.isA type = true)
    (h : type ∉ Grammar.dependentTypes) : recordOf .standard node = none := by
  have htype := Grammar.type?_of_isA ht
  have hother : ∀ t ∈ Grammar.dependentTypes, node.type? ≠ some t := by
    intro t hmem heq
    exact h (Option.some.inj (htype.symm.trans heq) ▸ hmem)
  rw [recordOf, Grammar.dependencyFor_eq_null hother]
  rfl

theorem below_templateElement {q : Occurrence} (h : q.node.isA "TemplateElement" = true) :
    below .standard q = [] := by
  have hrule :=
    ruleOf_of_type (Grammar.type?_of_isA h) (Grammar.rule?_standard_of_row .es2015 22 rfl)
  exact below_of_ok hrule (Occurrence.children_eq_ok.mpr ⟨[], rfl, rfl⟩)

theorem met_templateElement {q : Occurrence} (h : q.node.isA "TemplateElement" = true) :
    met .standard q = [q] := by
  rw [met_eq, below_templateElement h, List.flatMap_nil]

theorem below_template {o : Occurrence} (h : o.node.isA "TemplateLiteral" = true) :
    below .standard o = o.held 0 "quasis" ++ o.held 1 "expressions" := by
  have hrule :=
    ruleOf_of_type (Grammar.type?_of_isA h) (Grammar.rule?_standard_of_row .es2015 23 rfl)
  refine below_of_ok hrule (Occurrence.children_eq_ok.mpr
    ⟨(o.node.prop "quasis").nodesAt 0 ++ ((o.node.prop "expressions").nodesAt 1 ++ []), rfl, ?_⟩)
  rw [List.append_nil, List.map_append]
  rfl

/-- The texts of a template have no records, so they are in order with anything. -/
theorem inOrder_of_texts {qs : List Occurrence}
    (h : ∀ q ∈ qs, q.node.isA "TemplateElement" = true) :
    ∀ x ∈ qs.flatMap (met .standard), ∀ y, InOrder x y := by
  intro x hx y hrecord
  obtain ⟨q, hq, hx⟩ := List.mem_flatMap.mp hx
  rw [met_templateElement (h q hq), List.mem_singleton] at hx
  subst hx
  rw [recordOf_of_type (h x hq) (by decide)] at hrecord
  cases hrecord

theorem below_inOrder {o : Occurrence} (h : InSequence .standard o)
    (hwithin : ∀ c ∈ below .standard o, ∀ y ∈ met .standard c,
      c.node.lineNumber ≤ y.node.lineNumber)
    (hblocks : ∀ c ∈ below .standard o, (met .standard c).Pairwise InOrder) :
    ((below .standard o).flatMap (met .standard)).Pairwise InOrder := by
  by_cases htemplate : o.node.isA "TemplateLiteral" = true
  · -- The texts are visited before the expressions between them, but have no records.
    rw [InSequence, if_pos htemplate] at h
    obtain ⟨htexts, hexpressions⟩ := h
    have hsilent := inOrder_of_texts htexts
    rw [below_template htemplate] at hwithin hblocks ⊢
    rw [List.flatMap_append]
    refine List.pairwise_append.mpr ⟨?_, ?_, fun x hx y _ => hsilent x hx y⟩
    · exact List.pairwise_of_forall_mem_list fun x hx y _ => hsilent x hx y
    · exact inOrder_flatMap hexpressions (fun d hd => hwithin d (List.mem_append_right _ hd))
        fun c hc => hblocks c (List.mem_append_right _ hc)
  · rw [InSequence, if_neg htemplate] at h
    exact inOrder_flatMap h hwithin hblocks

/-- The records of a node come before those of the nodes below it. -/
theorem met_inOrder (o : Occurrence)
    (hwithin : ∀ x ∈ met .standard o, ∀ y ∈ met .standard x,
      x.node.lineNumber ≤ y.node.lineNumber)
    (hsequence : ∀ x ∈ met .standard o, (ruleOf .standard x.node).isSome →
      InSequence .standard x) :
    (met .standard o).Pairwise InOrder := by
  induction o using below_induction .standard with
  | step o ih =>
    have hblocks : ∀ c ∈ below .standard o, (met .standard c).Pairwise InOrder := by
      intro c hc
      have hsubset := met_subset hc
      exact ih c hc (fun x hx => hwithin x (hsubset hx)) fun x hx => hsequence x (hsubset hx)
    have hbelow : ∀ c ∈ below .standard o, ∀ y ∈ met .standard c,
        c.node.lineNumber ≤ y.node.lineNumber := by
      intro c hc
      exact hwithin c (met_subset hc (self_mem_met c))
    have hself := hwithin o (self_mem_met o)
    rw [met_eq] at hself ⊢
    refine List.pairwise_cons.mpr ⟨fun x hx _ _ => hself x (List.mem_cons_of_mem o hx), ?_⟩
    cases rule : ruleOf .standard o.node with
    | none =>
      rw [below_of_none rule]
      exact List.Pairwise.nil
    | some r =>
      have hin := hsequence o (self_mem_met o) (by rw [rule]; rfl)
      exact below_inOrder hin hbelow hblocks

theorem ofTree_eq_recordsIn {g : Grammar} {tree : Value} {records : List Value}
    (h : ofTree g tree = .ok records) : records = recordsIn g (describeTree g tree).events := by
  rw [ofTree, walk, walk_eq_feed, Report.feed] at h
  rcases hfeed : feed (collect g) empty (describeTree g tree).events with ⟨last, _ | fault⟩
  · obtain ⟨next, hnext, hall⟩ := feed_collect (d := empty) (dependencyFor_of_feed hfeed)
    cases hfeed.symm.trans hnext
    rw [hfeed] at h
    cases hf : (describeTree g tree).fault with
    | some fault => rw [hf] at h; cases h
    | none =>
      rw [hf] at h
      cases h
      exact hall
  · rw [hfeed] at h
    cases h

theorem ofTree_eq_filterMap {tree : Value} {records : List Value}
    (h : ofTree .standard tree = .ok records) :
    records = (metTree .standard tree).filterMap fun x => recordOf .standard x.node := by
  have hf := fault_describeTree_standard tree
  rw [ofTree_eq_recordsIn h, recordsIn, signalled_describeTree hf, visitedTree_eq_filter hf,
    List.filterMap_filter]
  -- What has no rule is not visited, but has no record either.
  refine List.filterMap_congr fun x _ => ?_
  cases rule : ruleOf .standard x.node with
  | some r => rfl
  | none =>
    rw [recordOf, lookup_of_ruleOf_eq_none rule]
    rfl

theorem line_of_recordOf {node r : Value} (h : recordOf .standard node = some r) :
    r.prop "line" = node.line := by
  rw [recordOf] at h
  cases hd : (Grammar.standard.lookup node.type?).dependencyFor node with
  | error fault => rw [hd] at h; cases h
  | ok d =>
    rw [hd] at h
    have hrecord : d.record? = some r := h
    unfold Value.record? at hrecord
    split at hrecord
    · cases hrecord
    · rename_i hnull
      cases hrecord
      exact Grammar.line_of_dependencyFor hd fun h => hnull (by rw [h]; rfl)

theorem metTree_inOrder {tree : Value} (h : LineOrdered .standard tree) :
    (metTree .standard tree).Pairwise InOrder := by
  have hroots : ∀ o ∈ roots tree, met .standard o ⊆ metTree .standard tree := fun o ho x hx =>
    List.mem_flatMap.mpr ⟨o, ho, hx⟩
  have hsequence : ∀ x ∈ metTree .standard tree, (ruleOf .standard x.node).isSome →
      InSequence .standard x := by
    intro x hx hrule
    refine h.children x ?_
    rw [visitedTree_eq_filter (fault_describeTree_standard tree)]
    exact List.mem_filter.mpr ⟨hx, hrule⟩
  refine inOrder_flatMap h.body (fun o ho => h.within o (hroots o ho (self_mem_met o)))
    fun o ho => ?_
  exact met_inOrder o (fun x hx => h.within x (hroots o ho hx)) fun x hx =>
    hsequence x (hroots o ho hx)

/-- If the nodes of a tree have lines, start no sooner than those above them, and follow one
another, the texts of templates aside, then the lines of its dependencies never go back. -/
theorem collected_in_source_order {tree : Value} {records : List Value}
    (hrecords : ofTree .standard tree = .ok records) (hlines : LineOrdered .standard tree) :
    ∃ lines : List Int, records.map (fun r => (r.prop "line").int?) = lines.map some ∧
      lines.Pairwise (· ≤ ·) := by
  refine ⟨records.map fun r => (r.prop "line").int?.getD 0, ?_, ?_⟩
  · rw [List.map_map]
    refine List.map_congr_left fun r hr => ?_
    rw [ofTree_eq_filterMap hrecords] at hr
    obtain ⟨x, hx, hrecord⟩ := List.mem_filterMap.mp hr
    obtain ⟨line, hline⟩ := Option.isSome_iff_exists.mp (hlines.numbered x hx)
    rw [Function.comp, line_of_recordOf hrecord, hline, Option.getD_some]
  · rw [List.pairwise_map, ofTree_eq_filterMap hrecords, List.pairwise_filterMap]
    refine (metTree_inOrder hlines).imp fun {x y} hxy r hr r' hr' => ?_
    have hle := hxy (by rw [hr]; rfl) (by rw [hr']; rfl)
    rw [line_of_recordOf hr, line_of_recordOf hr']
    exact hle

/-! ### A template over three lines -/

def onLine (line : Int) (type : Text) (fields : List (Text × Value)) : Value :=
  .mapping (("type", .text type) ::
    ("loc", .mapping [("start", .mapping [("line", .int line)])]) :: fields)

def moduleOn (line : Int) : Value := onLine line "Literal" [("value", .text "m")]

def importOn (line : Int) : Value := onLine line "ImportExpression" [("source", moduleOn line)]

def textOn (line : Int) : Value := onLine line "TemplateElement" []

/-- The texts are on lines 1, 2 and 3, and the expressions between them on 2 and 3. -/
def template : Value := onLine 1 "TemplateLiteral" [
  ("quasis", .list [textOn 1, textOn 2, textOn 3]), ("expressions", .list [importOn 2, importOn 3])]

def templateTree : Value := .mapping [("type", .text "Program"), ("body", template)]

theorem below_moduleOn (place : Place) (line : Int) :
    below .standard ⟨place, moduleOn line⟩ = [] := by
  have hrule : ruleOf .standard (moduleOn line) = _ :=
    ruleOf_of_type rfl (Grammar.rule?_standard_of_row .es5 20 rfl)
  exact below_of_ok hrule (Occurrence.children_eq_ok.mpr ⟨[], rfl, rfl⟩)

theorem below_importOn (place : Place) (line : Int) :
    below .standard ⟨place, importOn line⟩ = [⟨⟨0, 0⟩ :: place, moduleOn line⟩] := by
  have hrule : ruleOf .standard (importOn line) = _ :=
    ruleOf_of_type rfl (Grammar.rule?_standard_of_row .es2020 1 rfl)
  exact below_of_ok hrule (Occurrence.children_eq_ok.mpr ⟨[(⟨0, 0⟩, moduleOn line)], rfl, rfl⟩)

theorem met_moduleOn (place : Place) (line : Int) :
    met .standard ⟨place, moduleOn line⟩ = [⟨place, moduleOn line⟩] := by
  rw [met_eq, below_moduleOn, List.flatMap_nil]

theorem met_importOn (place : Place) (line : Int) : met .standard ⟨place, importOn line⟩ =
    [⟨place, importOn line⟩, ⟨⟨0, 0⟩ :: place, moduleOn line⟩] := by
  rw [met_eq, below_importOn, List.flatMap_singleton, met_moduleOn]

theorem met_textOn (place : Place) (line : Int) :
    met .standard ⟨place, textOn line⟩ = [⟨place, textOn line⟩] := met_templateElement rfl

theorem met_template (place : Place) : met .standard ⟨place, template⟩ =
    [⟨place, template⟩, ⟨⟨0, 0⟩ :: place, textOn 1⟩, ⟨⟨0, 1⟩ :: place, textOn 2⟩,
      ⟨⟨0, 2⟩ :: place, textOn 3⟩, ⟨⟨1, 0⟩ :: place, importOn 2⟩,
      ⟨⟨0, 0⟩ :: ⟨1, 0⟩ :: place, moduleOn 2⟩, ⟨⟨1, 1⟩ :: place, importOn 3⟩,
      ⟨⟨0, 0⟩ :: ⟨1, 1⟩ :: place, moduleOn 3⟩] := by
  have hbelow : below .standard ⟨place, template⟩ =
      [⟨⟨0, 0⟩ :: place, textOn 1⟩, ⟨⟨0, 1⟩ :: place, textOn 2⟩, ⟨⟨0, 2⟩ :: place, textOn 3⟩,
        ⟨⟨1, 0⟩ :: place, importOn 2⟩, ⟨⟨1, 1⟩ :: place, importOn 3⟩] := below_template rfl
  rw [met_eq, hbelow]
  simp only [List.flatMap_cons, List.flatMap_nil, met_textOn, met_importOn, List.cons_append,
    List.nil_append]

theorem inSequence_template (place : Place) : InSequence .standard ⟨place, template⟩ := by
  have hchain : Successive .standard
      [⟨⟨1, 0⟩ :: place, importOn 2⟩, ⟨⟨1, 1⟩ :: place, importOn 3⟩] := by
    refine List.isChain_cons_cons.mpr ⟨?_, List.IsChain.singleton _⟩
    rw [Precedes, met_importOn]
    simp only [List.forall_mem_cons]
    exact ⟨by decide, by decide, List.forall_mem_nil _⟩
  have htemplate : template.isA "TemplateLiteral" = true := rfl
  rw [InSequence, if_pos htemplate]
  refine ⟨?_, hchain⟩
  show ∀ q ∈ ([⟨⟨0, 0⟩ :: place, textOn 1⟩, ⟨⟨0, 1⟩ :: place, textOn 2⟩,
    ⟨⟨0, 2⟩ :: place, textOn 3⟩] : List Occurrence), q.node.isA "TemplateElement" = true
  simp only [List.forall_mem_cons]
  exact ⟨rfl, rfl, rfl, List.forall_mem_nil _⟩

theorem metTree_template :
    metTree .standard templateTree = met .standard ⟨[⟨0, 0⟩], template⟩ := by
  have hroots : roots templateTree = [⟨[⟨0, 0⟩], template⟩] := rfl
  rw [metTree, hroots, List.flatMap_singleton]

theorem lineOrdered_template : LineOrdered .standard templateTree := by
  have htexts : ∀ place line, InSequence .standard ⟨place, textOn line⟩ := by
    refine fun place line => inSequence_of_other rfl ?_
    rw [below_templateElement rfl]
    exact List.IsChain.nil
  have himports : ∀ place line, InSequence .standard ⟨place, importOn line⟩ := by
    refine fun place line => inSequence_of_other rfl ?_
    rw [below_importOn]
    exact List.IsChain.singleton _
  have hmodules : ∀ place line, InSequence .standard ⟨place, moduleOn line⟩ := by
    refine fun place line => inSequence_of_other rfl ?_
    rw [below_moduleOn]
    exact List.IsChain.nil
  refine ⟨?_, ?_, List.IsChain.singleton _, fun o ho => ?_⟩
  · rw [metTree_template, met_template]
    simp only [List.forall_mem_cons]
    exact ⟨rfl, rfl, rfl, rfl, rfl, rfl, rfl, rfl, List.forall_mem_nil _⟩
  · rw [metTree_template, met_template]
    simp only [met_template, met_textOn, met_importOn, met_moduleOn, List.forall_mem_cons,
      List.not_mem_nil, false_imp_iff, implies_true, and_true]
    decide
  · rw [visitedTree_eq_filter (fault_describeTree_standard templateTree), metTree_template,
      met_template] at ho
    have hall := List.mem_of_mem_filter ho
    clear ho
    revert o
    simp only [List.forall_mem_cons]
    exact ⟨inSequence_template _, htexts _ _, htexts _ _, htexts _ _, himports _ _, hmodules _ _,
      himports _ _, hmodules _ _, List.forall_mem_nil _⟩

/-- The modules that the template asks for are asked for on lines 2 and 3, after all of its
texts are visited. -/
theorem collected_in_template : LineOrdered .standard templateTree ∧
    ∃ records, ofTree .standard templateTree = .ok records ∧
    ∃ lines : List Int, records.map (fun r => (r.prop "line").int?) = lines.map some ∧
      lines.Pairwise (· ≤ ·) := by
  have hcalls : ∀ x ∈ metTree .standard templateTree, x.node.isA "CallExpression" = false := by
    rw [metTree_template, met_template]
    simp only [List.forall_mem_cons]
    exact ⟨rfl, rfl, rfl, rfl, rfl, rfl, rfl, rfl, List.forall_mem_nil _⟩
  obtain ⟨records, hrecords⟩ := exists_ofTree_standard_iff.mpr fun path node _ hn hfail => by
    have hpath : (⟨path.reverse, node⟩ : Occurrence).path = path := List.reverse_reverse path
    have hmem := (mem_metTree (fault_describeTree_standard templateTree) ⟨path.reverse, node⟩).mpr
      (hpath.symm ▸ hn)
    cases (hcalls _ hmem).symm.trans hfail.1.1
  exact ⟨lineOrdered_template, records, hrecords,
    collected_in_source_order hrecords lineOrdered_template⟩

end Dependencies

end Estree
