import Estree.Proofs.Grammar.Answers
import Estree.Proofs.Trace.Dependencies
import Estree.Proofs.Walk.Nesting

/-!
Traces that fail under the standard grammar.

The walk itself never fails there, so a trace fails at the first call of `require` whose
dependency cannot be worked out, and keeps the lines of everything before it:
`walk_cases`.
-/

namespace Estree

open Grammar (FailingRequire RequireCall RequiredPath orderFault contribution_eq_error_iff)

namespace Walk

theorem opens_of_isA_call {node : Value} (h : node.isA "CallExpression" = true) :
    opens .standard node = false := by
  have htype := Grammar.type?_of_isA h
  have rule := ruleOf_of_type htype (Grammar.rule?_standard_of_row .es5 5 rfl)
  exact opens_of_ok rule rfl

/-- Scopes open and close for nodes that open one. -/
theorem opens_of_mem {g : Grammar} {tree : Value} :
    ∀ e ∈ (describeTree g tree).events, e.signal ≠ .visit → opens g e.node = true := by
  refine describeTree_events (P := fun es => ∀ e ∈ es, e.signal ≠ .visit → opens g e.node = true)
    (List.forall_mem_nil _) (fun as bs has hbs => List.forall_mem_append.mpr ⟨has, hbs⟩)
    (fun o => ?_) (fun o => ?_) tree
  · cases ho : opens g o.node with
    | true => exact List.forall_mem_cons.mpr ⟨fun _ => ho, by simp⟩
    | false => exact List.forall_mem_singleton.mpr fun h => absurd rfl h
  · cases ho : opens g o.node with
    | true => exact List.forall_mem_singleton.mpr fun _ => ho
    | false => exact List.forall_mem_nil _

/-- The visit of a node without a scope is the one event at it. -/
theorem occurrence_ne_of_visit {g : Grammar} {tree : Value}
    (h : (describeTree g tree).fault = none) {past later : List Event} {o : Occurrence}
    (hevents : (describeTree g tree).events = past ++ ⟨.visit, o⟩ :: later)
    (ho : opens g o.node = false) : ∀ e ∈ past, e.occurrence ≠ o := by
  intro e he heq
  have hmem : e ∈ (describeTree g tree).events := by
    rw [hevents]
    exact List.mem_append_left _ he
  have hvisit : e.signal = .visit := by
    by_contra hsignal
    have hopens := opens_of_mem e hmem hsignal
    rw [Event.node, heq, ho] at hopens
    cases hopens
  have hsorted := visitedTree_pairwise h
  rw [← signalled_describeTree h, hevents, signalled_append, signalled_cons, if_pos rfl] at hsorted
  have hpast : o ∈ signalled .visit past := mem_signalled.mpr (by rw [← hvisit, ← heq]; exact he)
  exact Before.irrefl _ ((List.pairwise_append.mp hsorted).2.2 o hpast o List.mem_cons_self)

theorem fault_describeTree_standard (tree : Value) : (describeTree .standard tree).fault = none :=
  describeTree_fault_of_evaluates fun _ w _ _ => evaluates_standard w

end Walk

namespace Trace

open Walk

variable {g : Grammar} {flags : Flags}

/-- A recorder that took some events has their lines, and one that fails on the next has
been called for a visit, with nothing to write down. -/
theorem record_stops {past : List Event} {e : Event} {before after : Trace} {fault : Fault}
    (hpast : feed (record g flags) empty past = (before, none))
    (hfail : record g flags before e = (after, some fault)) :
    linesOf g flags 0 past = .ok after.lines.toList ∧ e.signal = .visit ∧
      Contribution.of g flags e.node = .error fault := by
  cases hls : linesOf g flags 0 past with
  | error fault' =>
    have herror := feed_record_of_error (t := empty) hls
    rw [hpast] at herror
    cases herror
  | ok ls =>
    have hbefore := feed_record_of_ok (t := empty) hls
    rw [hpast] at hbefore
    cases hbefore
    rw [record_eq] at hfail
    obtain ⟨signal, o⟩ := e
    cases signal with
    | enter => cases hfail
    | leave => cases hfail
    | visit =>
      simp only [Line.of] at hfail
      cases hc : Contribution.of g flags (Event.node ⟨.visit, o⟩) with
      | ok c => rw [hc] at hfail; cases hfail
      | error fault' =>
        rw [hc] at hfail
        cases hfail
        exact ⟨by simp [empty], rfl, rfl⟩

/-- How the trace of a tree can go: it comes to its end, or stops at the first call of
`require` that fails. -/
theorem walk_cases (flags : Flags) (tree : Value) :
    ((walk .standard flags tree empty).2 = none ∧
        ∀ o ∈ signalled .visit (describeTree .standard tree).events, ¬FailingRequire o.node) ∨
      ∃ t fault past o later, walk .standard flags tree empty = (t, some fault) ∧
        (describeTree .standard tree).events = past ++ ⟨.visit, o⟩ :: later ∧
        FailingRequire o.node ∧ fault = orderFault (o.node.prop "arguments") ∧
        (∀ p ∈ signalled .visit past, ¬FailingRequire p.node) ∧
        linesOf .standard flags 0 past = .ok t.lines.toList := by
  have hgood : ∀ {es ls}, linesOf .standard flags 0 es = .ok ls →
      ∀ o ∈ signalled .visit es, ¬FailingRequire o.node := by
    intro es ls hls o ho hfail
    obtain ⟨c, hc⟩ := exists_contribution hls ho
    cases hc.symm.trans (contribution_eq_error_iff.mpr ⟨hfail, rfl⟩)
  rcases calls_cases .standard tree (record .standard flags) empty with
    ⟨hfeed, -, hend⟩ | ⟨past, e, later, before, t, fault, hevents, hpast, hfail, -, hend⟩
  · refine .inl ⟨hend.trans (fault_describeTree_standard tree), ?_⟩
    cases hls : linesOf .standard flags 0 (describeTree .standard tree).events with
    | ok ls => exact hgood hls
    | error fault =>
      have herror := feed_record_of_error (t := empty) hls
      cases hfeed.symm.trans herror
  · obtain ⟨hls, hvisit, hc⟩ := record_stops hpast hfail
    obtain ⟨signal, o⟩ := e
    cases hvisit
    obtain ⟨hrequire, hfault⟩ := contribution_eq_error_iff.mp hc
    exact .inr ⟨t, fault, past, o, later, hend, hevents, hrequire, hfault, hgood hls, hls⟩

theorem exists_ofTree_iff {tree : Value} :
    (∃ ls, ofTree g flags tree = .ok ls) ↔ (walk g flags tree empty).2 = none := by
  unfold ofTree
  rcases walk g flags tree empty with ⟨t, _ | fault⟩ <;> simp

/-- A tree has a trace unless a call that fails is reached. -/
theorem exists_ofTree_standard_iff {tree : Value} :
    (∃ ls, ofTree .standard flags tree = .ok ls) ↔
      ∀ path node, Reached .standard tree path → node? .standard tree path = some node →
        ¬FailingRequire node := by
  have hf := fault_describeTree_standard tree
  have hmem : ∀ o, o ∈ signalled .visit (describeTree .standard tree).events ↔
      Reached .standard tree o.path ∧ node? .standard tree o.path = some o.node := by
    rw [signalled_describeTree hf]
    exact mem_visitedTree hf
  rw [exists_ofTree_iff]
  rcases walk_cases flags tree with
    ⟨hend, hall⟩ | ⟨t, fault, past, o, later, hwalk, hevents, hfail, -⟩
  · refine ⟨fun _ path node hr hn => ?_, fun _ => hend⟩
    have hpath : (⟨path.reverse, node⟩ : Occurrence).path = path := List.reverse_reverse path
    exact hall ⟨path.reverse, node⟩ ((hmem _).mpr ⟨hpath.symm ▸ hr, hpath.symm ▸ hn⟩)
  · refine ⟨fun hend => ?_, fun hall => ?_⟩
    · rw [hwalk] at hend
      cases hend
    · have ho : o ∈ signalled .visit (describeTree .standard tree).events := by
        rw [mem_signalled, hevents]
        exact List.mem_append_right _ List.mem_cons_self
      exact absurd hfail (hall o.path o.node ((hmem o).mp ho).1 ((hmem o).mp ho).2)

/-- Whatever a node holds and whatever the settings are, its contribution can be worked out
unless the node is a call of `require` with arguments that are true and neither a list nor
text; it has at most two lines and one branch, and a call of `require` depends on the text
of a literal that stands first among its arguments, and else on what cannot be told.  So a
tree has a trace exactly if no such call is reached.  A trace that fails has been called
with every event before the first of these calls, none of them at that node, and has the
lines of all of them. -/
theorem fails_at_require (flags : Flags) :
    (∀ node,
      (FailingRequire node ∧
        Contribution.of .standard flags node = .error (orderFault (node.prop "arguments"))) ∨
      (¬FailingRequire node ∧ ∃ c, Contribution.of .standard flags node = .ok c ∧
        (c.lloc = .int 0 ∨ c.lloc = .int 1 ∨ c.lloc = .int 2) ∧
        (c.cyclomatic = .int 0 ∨ c.cyclomatic = .int 1) ∧
        (RequireCall node → ∃ path, c.dependency = .mapping [("line", node.line),
          ("type", .text "CommonJS"), ("path", path)] ∧ RequiredPath node path))) ∧
    ∀ tree,
      ((∃ ls, ofTree .standard flags tree = .ok ls) ↔
        ∀ path node, Reached .standard tree path → node? .standard tree path = some node →
          ¬FailingRequire node) ∧
      ∀ fault, ofTree .standard flags tree = .error fault →
        ∃ t past o later, walk .standard flags tree empty = (t, some fault) ∧
          (report .standard tree).events = past ++ ⟨.visit, o⟩ :: later ∧
          FailingRequire o.node ∧ fault = orderFault (o.node.prop "arguments") ∧
          (∀ p ∈ signalled .visit past, ¬FailingRequire p.node) ∧
          (∀ e ∈ past, e.occurrence ≠ o) ∧
          linesOf .standard flags 0 past = .ok t.lines.toList := by
  refine ⟨Grammar.contribution_cases flags, fun tree =>
    ⟨exists_ofTree_standard_iff, fun fault hfault => ?_⟩⟩
  rcases walk_cases flags tree with
    ⟨hend, -⟩ | ⟨t, fault', past, o, later, hwalk, hevents, hfail, horder, hbefore, hls⟩
  · obtain ⟨ls, hls⟩ := exists_ofTree_iff.mpr hend
    cases hls.symm.trans hfault
  · have hsame : fault' = fault := by
      rw [ofTree, hwalk] at hfault
      exact Except.error.inj hfault
    subst hsame
    have hopens := opens_of_isA_call hfail.1.1
    refine ⟨t, past, o, later, hwalk, ?_, hfail, horder, hbefore, ?_, hls⟩
    · rw [report_eq_describeTree]
      exact hevents
    · exact occurrence_ne_of_visit (fault_describeTree_standard tree) hevents hopens

end Trace

namespace Dependencies

open Walk

variable {g : Grammar}

theorem dependencyFor_of_feed {d next : Dependencies} {es : List Event}
    (h : feed (collect g) d es = (next, none)) :
    ∀ o ∈ signalled .visit es, ∃ v, (g.lookup o.node.type?).dependencyFor o.node = .ok v := by
  induction es generalizing d with
  | nil => exact List.forall_mem_nil _
  | cons e es ih =>
    rw [feed_cons] at h
    cases hc : collect g d e with
    | mk after fault =>
      rw [hc] at h
      cases fault with
      | some fault => cases h
      | none =>
        obtain ⟨signal, o⟩ := e
        rw [signalled_cons]
        split
        · rename_i hvisit
          cases hvisit
          refine List.forall_mem_cons.mpr ⟨?_, ih h⟩
          rcases collect_cases g d ⟨.visit, o⟩ with ⟨fault, -, -, hfault⟩ | ⟨_, -, -⟩
          · cases hc.symm.trans hfault
          · cases hd : (g.lookup o.node.type?).dependencyFor o.node with
            | ok v => exact ⟨v, rfl⟩
            | error fault =>
              simp only [collect, Event.node, hd] at hc
              cases hc
        · exact ih h

/-- Dependencies are collected unless a call that fails is reached. -/
theorem exists_ofTree_standard_iff {tree : Value} :
    (∃ rs, ofTree .standard tree = .ok rs) ↔
      ∀ path node, Reached .standard tree path → node? .standard tree path = some node →
        ¬FailingRequire node := by
  constructor
  · rintro ⟨rs, hrs⟩ path node hr hn hfail
    have hf := fault_describeTree_standard tree
    have hfeed :
        (feed (collect .standard) empty (describeTree .standard tree).events).2 = none := by
      rw [ofTree, walk, walk_eq_feed, Report.feed] at hrs
      rcases hend : feed (collect .standard) empty (describeTree .standard tree).events with
        ⟨next, _ | fault⟩
      · rfl
      · rw [hend] at hrs
        cases hrs
    have hpath : (⟨path.reverse, node⟩ : Occurrence).path = path := List.reverse_reverse path
    have ho : ⟨path.reverse, node⟩ ∈ signalled .visit (describeTree .standard tree).events := by
      rw [signalled_describeTree hf]
      exact (mem_visitedTree hf _).mpr ⟨hpath.symm ▸ hr, hpath.symm ▸ hn⟩
    obtain ⟨v, hv⟩ := dependencyFor_of_feed (Prod.ext rfl hfeed) _ ho
    rcases Grammar.dependencyFor_standard node with ⟨-, hd⟩ | ⟨hgood, -⟩
    · cases hv.symm.trans hd
    · exact hgood hfail
  · intro h
    have hlines : ∃ ls, Trace.ofTree .standard Flags.none tree = .ok ls :=
      Trace.exists_ofTree_standard_iff.mpr h
    obtain ⟨ls, hls⟩ := hlines
    exact ⟨_, ofTree_eq_ok hls⟩

end Dependencies

end Estree
