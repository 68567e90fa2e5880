import Estree.Proofs.Trace.Given
import Estree.Proofs.Trace.Lines

/-!
Dependencies, as they are collected and as they are traced.

A collector works out one field of a contribution where a trace works out all of them, so
it comes to the same records and never fails where the trace does not.  Whatever is done
with a collector, it holds the records of the nodes for which it did not fail,
`holds_session`.  Main statement: `collected_as_traced`.
-/

namespace Estree

/-- The record of a dependency; null is none. -/
def Value.record? (v : Value) : Option Value := if v.isNull then none else some v

theorem Value.record?_of_ne_null {v : Value} (h : v ≠ .null) : v.record? = some v := by
  cases v with
  | null => exact absurd rfl h
  | _ => rfl

theorem Contribution.dependency_of {g : Grammar} {flags : Flags} {node : Value}
    {c : Contribution} (h : Contribution.of g flags node = .ok c) :
    (g.lookup node.type?).dependencyFor node = .ok c.dependency := by
  obtain ⟨-, -, -, -, -, hdependency, -⟩ := Contribution.fields_of h
  exact hdependency

namespace Dependencies

open Walk

variable {g : Grammar}

/-- The record of a node, if its rule comes to one. -/
def recordOf (g : Grammar) (node : Value) : Option Value :=
  match (g.lookup node.type?).dependencyFor node with
  | .ok v => v.record?
  | .error _ => none

def recordsIn (g : Grammar) (es : List Event) : List Value :=
  (signalled .visit es).filterMap fun o => recordOf g o.node

theorem recordsIn_append (as bs : List Event) :
    recordsIn g (as ++ bs) = recordsIn g as ++ recordsIn g bs := by
  rw [recordsIn, signalled_append, List.filterMap_append]
  rfl

theorem recordsIn_visit (o : Occurrence) :
    recordsIn g [⟨.visit, o⟩] = (recordOf g o.node).toList := by
  rw [recordsIn, signalled_cons, if_pos rfl, List.filterMap_cons]
  cases recordOf g o.node <;> rfl

/-- A call that fails leaves the records as they are, and one that succeeds adds the
record of a visited node. -/
theorem collect_cases (g : Grammar) (d : Dependencies) (e : Event) :
    (∃ fault, e.signal = .visit ∧
        (g.lookup e.node.type?).dependencyFor e.node = .error fault ∧
        collect g d e = (d, some fault)) ∨
      ∃ next, collect g d e = (next, none) ∧
        next.records.toList = d.records.toList ++ recordsIn g [e] := by
  obtain ⟨signal, o⟩ := e
  cases signal with
  | enter => exact .inr ⟨d, rfl, (List.append_nil _).symm⟩
  | visit =>
    rw [recordsIn_visit, recordOf]
    cases h : (g.lookup o.node.type?).dependencyFor o.node with
    | error fault => exact .inl ⟨fault, rfl, h, by simp only [collect, Event.node, h]⟩
    | ok v =>
      by_cases hv : v = .null
      · subst hv
        refine .inr ⟨d, ?_, (List.append_nil _).symm⟩
        simp only [collect, Event.node, h]
      · refine .inr ⟨⟨d.records.push v⟩, ?_, ?_⟩
        · simp only [collect, Event.node, h]
        · show (d.records.push v).toList = d.records.toList ++ v.record?.toList
          rw [Value.record?_of_ne_null hv, Array.toList_push]
          rfl
  | leave => exact .inr ⟨d, rfl, (List.append_nil _).symm⟩

/-- The records are those of the nodes visited in the events that were taken. -/
def Holds (g : Grammar) (s : Dependencies × List Event) : Prop :=
  s.1.records.toList = recordsIn g s.2

theorem holds_collect (s : Dependencies × List Event) (e : Event) (h : Holds g s) :
    Holds g ((collect g).answered s e).1 := by
  obtain ⟨d, past⟩ := s
  rcases collect_cases g d e with ⟨fault, -, -, hc⟩ | ⟨next, hc, hnext⟩
  · simp only [Consumer.answered, hc]
    exact h
  · simp only [Consumer.answered, hc]
    show next.records.toList = recordsIn g (past ++ [e])
    rw [recordsIn_append, hnext, h]

theorem holds_session (steps : List Step) :
    Holds g (session (collect g).answered (empty, []) steps) := by
  have hstart : Holds g (empty, []) := rfl
  exact session_keeps (P := Holds g) holds_collect hstart steps

/-! ### Beside a trace -/

/-- If every node visited has a dependency that can be worked out, all are collected. -/
theorem feed_collect {d : Dependencies} {es : List Event}
    (h : ∀ o ∈ signalled .visit es, ∃ v, (g.lookup o.node.type?).dependencyFor o.node = .ok v) :
    ∃ next, feed (collect g) d es = (next, none) ∧
      next.records.toList = d.records.toList ++ recordsIn g es := by
  induction es generalizing d with
  | nil => exact ⟨d, rfl, (List.append_nil _).symm⟩
  | cons e es ih =>
    rcases collect_cases g d e with ⟨fault, hvisit, hfault, -⟩ | ⟨next, hc, hnext⟩
    · have hmem : e.occurrence ∈ signalled .visit (e :: es) := by
        rw [signalled_cons, if_pos hvisit]
        exact List.mem_cons_self
      obtain ⟨v, hv⟩ := h e.occurrence hmem
      cases hv.symm.trans hfault
    · have hrest : ∀ o ∈ signalled .visit es,
          ∃ v, (g.lookup o.node.type?).dependencyFor o.node = .ok v := by
        intro o ho
        have hmem : o ∈ signalled .visit ([e] ++ es) := by
          rw [signalled_append]
          exact List.mem_append_right _ ho
        exact h o hmem
      obtain ⟨last, hl, hlast⟩ := ih (d := next) hrest
      refine ⟨last, ?_, ?_⟩
      · rw [feed_cons, hc]
        exact hl
      · rw [hlast, hnext, List.append_assoc, ← recordsIn_append, List.singleton_append]

theorem recordOf_contribution {flags : Flags} {node : Value} {c : Contribution}
    (h : Contribution.of g flags node = .ok c) : recordOf g node = c.dependency.record? := by
  rw [recordOf, Contribution.dependency_of h]

theorem recordsIn_eq {flags : Flags} {depth : Int} {es : List Event} {ls : List Trace.Line}
    (h : Trace.linesOf g flags depth es = .ok ls) :
    recordsIn g es =
      (ls.filterMap Trace.Line.contribution).filterMap fun c => c.dependency.record? := by
  have hread : ∀ (o : Occurrence) c, Contribution.of g flags o.node = .ok c →
      recordOf g o.node = c.dependency.record? := fun _ _ => recordOf_contribution
  have hmap := congrArg (List.filterMap id) (Trace.map_contributions hread h)
  rw [List.filterMap_map, List.filterMap_map] at hmap
  exact hmap.symm

theorem ofTree_eq_ok {flags : Flags} {tree : Value} {ls : List Trace.Line}
    (h : Trace.ofTree g flags tree = .ok ls) :
    ofTree g tree =
      .ok ((ls.filterMap Trace.Line.contribution).filterMap fun c => c.dependency.record?) := by
  obtain ⟨hf, hls⟩ := Trace.ofTree_eq_ok.mp h
  have hvisits : ∀ o ∈ signalled .visit (describeTree g tree).events,
      ∃ v, (g.lookup o.node.type?).dependencyFor o.node = .ok v := by
    intro o ho
    obtain ⟨c, hc⟩ := Trace.exists_contribution hls ho
    exact ⟨c.dependency, Contribution.dependency_of hc⟩
  obtain ⟨next, hfeed, hnext⟩ := feed_collect (d := empty) hvisits
  rw [ofTree, walk, walk_eq_feed, Report.feed, hfeed, hf]
  show Except.ok next.records.toList = _
  rw [hnext, recordsIn_eq hls]
  rfl

/-! ### Collectors -/

theorem session_collector (g : Grammar) (steps : List Step) :
    session Collector.collect (.mk g empty) steps =
      .mk g (session (collect g) empty steps) :=
  session_of_projects (collect_projects g) empty steps

theorem answered_collector (g : Grammar) (steps : List Step) :
    session (Consumer.answered Collector.collect) (.mk g empty, []) steps =
      (.mk g (session (collect g).answered (empty, []) steps).1,
        (session (collect g).answered (empty, []) steps).2) :=
  session_of_projects (answered_of_projects (collect_projects g)) (empty, []) steps

theorem collector_of_fault {c : Collector} {e : Event} {fault : Fault}
    (h : (Collector.collect c e).2 = some fault) : (Collector.collect c e).1 = c := by
  obtain ⟨g, d⟩ := c
  rw [collect_projects g d e] at h ⊢
  rcases collect_cases g d e with ⟨fault', -, -, hc⟩ | ⟨next, hc, -⟩
  · rw [hc]
  · rw [hc] at h
    cases h

/-- Whatever grammar is given, or none: if a tree has a trace, under whatever settings, its
dependencies under any others are the records in the trace, in order, and if they cannot be
collected it has no trace.  The record of a node is the one in its contribution, wherever
that can be worked out.  Whatever is done with a collector, calls and walks that may fail,
it holds the records of the nodes for which the calls succeeded, in the order of the calls;
a call that fails changes nothing. -/
theorem collected_as_traced (given : Option Grammar) (tree : Value) :
    (∀ flags ls, Trace.under given flags tree = .ok ls → ∀ flags',
      under given flags' tree =
        .ok ((ls.filterMap Trace.Line.contribution).filterMap fun c => c.dependency.record?)) ∧
    (∀ flags fault, under given flags tree = .error fault →
      ∀ flags', ∃ fault', Trace.under given flags' tree = .error fault') ∧
    (∀ flags node c, Contribution.under given flags node = .ok c →
      recordOf (.chosen given) node = c.dependency.record?) ∧
    (∀ steps : List Step,
      let s := session (Consumer.answered Collector.collect) (.new given, []) steps
      session Collector.collect (.new given) steps = s.1 ∧
        s.1.dependencies.records.toList = recordsIn (.chosen given) s.2) ∧
    ∀ (c : Collector) e fault, (Collector.collect c e).2 = some fault →
      (Collector.collect c e).1 = c := by
  simp only [under_eq, Trace.under_eq]
  refine ⟨fun flags ls h _ => ofTree_eq_ok h, fun _ fault h flags => ?_,
    fun flags node c => recordOf_contribution, fun steps => ?_,
    fun c e fault => collector_of_fault⟩
  · cases ht : Trace.ofTree (.chosen given) flags tree with
    | error fault' => exact ⟨fault', rfl⟩
    | ok ls =>
      rw [ofTree_eq_ok ht] at h
      cases h
  · have hsame :=
      session_of_projects (answered_projects (collect (.chosen given))) (empty, []) steps
    rw [Collector.new, session_collector, answered_collector]
    exact ⟨congrArg (Collector.mk _) hsame, holds_session steps⟩

end Dependencies

end Estree
