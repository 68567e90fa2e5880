import Estree.Trace
import Estree.Proofs.Walk.Description
import Mathlib.Data.List.Forall2

/-!
The lines of a trace.

A trace has a line for each event of a walk, and the line depends on the event and on
the number of scopes open before it.  So the trace of a tree is worked out from what the
walk reports, `ofTree_eq`, and it fails as soon as a contribution does.
-/

namespace Estree

theorem Contribution.fields_of {g : Grammar} {flags : Flags} {node : Value} {c : Contribution}
    (h : Contribution.of g flags node = .ok c) :
    let r := g.lookup node.type?
    r.llocFor node = .ok c.lloc ∧ r.cyclomaticFor node flags = .ok c.cyclomatic ∧
      r.operatorsFor node = .ok c.operators ∧ r.operandsFor node = .ok c.operands ∧
      r.opensScope node = .ok c.opensScope ∧ r.dependencyFor node = .ok c.dependency ∧
      r.assignableNameFor node = .ok c.assignableName ∧
      r.methodNameFor node = .ok c.methodName := by
  simp only [of, bind] at h
  obtain ⟨lloc, hlloc, h⟩ := Logged.bind_eq_ok.mp h
  obtain ⟨cyclomatic, hcyclomatic, h⟩ := Logged.bind_eq_ok.mp h
  obtain ⟨operators, hoperators, h⟩ := Logged.bind_eq_ok.mp h
  obtain ⟨operands, hoperands, h⟩ := Logged.bind_eq_ok.mp h
  obtain ⟨opensScope, hopensScope, h⟩ := Logged.bind_eq_ok.mp h
  obtain ⟨dependency, hdependency, h⟩ := Logged.bind_eq_ok.mp h
  obtain ⟨assignableName, hassignableName, h⟩ := Logged.bind_eq_ok.mp h
  obtain ⟨methodName, hmethodName, h⟩ := Logged.bind_eq_ok.mp h
  cases h
  exact ⟨hlloc, hcyclomatic, hoperators, hoperands, hopensScope, hdependency, hassignableName,
    hmethodName⟩

theorem Contribution.line_of {g : Grammar} {flags : Flags} {node : Value} {c : Contribution}
    (h : Contribution.of g flags node = .ok c) : c.line = node.line := by
  simp only [of, bind] at h
  iterate 8 obtain ⟨_, -, h⟩ := Logged.bind_eq_ok.mp h
  cases h
  rfl

namespace Trace

open Walk (Signal Event Occurrence Outcome feed describeTree)

variable {g : Grammar} {flags : Flags}

/-- The number of scopes open after an event. -/
def depthAfter (depth : Int) (e : Event) : Int :=
  match e.signal with
  | .enter => depth + 1
  | .visit => depth
  | .leave => depth - 1

/-- The line of an event before which so many scopes are open. -/
def Line.of (g : Grammar) (flags : Flags) (depth : Int) (e : Event) : Except Fault Line :=
  match e.signal with
  | .enter => .ok ⟨.enter, e.occurrence, depth, none⟩
  | .visit => (Contribution.of g flags e.node).map fun c => ⟨.visit, e.occurrence, depth, some c⟩
  | .leave => .ok ⟨.leave, e.occurrence, depth - 1, none⟩

def Line.event (l : Line) : Event := ⟨l.signal, l.occurrence⟩

theorem Line.of_visit_eq_ok {depth : Int} {o : Occurrence} {l : Line} :
    Line.of g flags depth ⟨.visit, o⟩ = .ok l ↔
      ∃ c, Contribution.of g flags o.node = .ok c ∧ l = ⟨.visit, o, depth, some c⟩ := by
  show (Contribution.of g flags o.node).map _ = .ok l ↔ _
  cases Contribution.of g flags o.node <;> simp [Except.map, eq_comm]

theorem Line.event_of {depth : Int} {e : Event} {l : Line} (h : Line.of g flags depth e = .ok l) :
    l.event = e := by
  obtain ⟨signal, o⟩ := e
  cases signal with
  | enter => cases h; rfl
  | visit =>
    obtain ⟨c, -, rfl⟩ := of_visit_eq_ok.mp h
    rfl
  | leave => cases h; rfl

/-- The lines of events, the first of them with so many scopes open before it. -/
def linesOf (g : Grammar) (flags : Flags) : Int → List Event → Except Fault (List Line)
  | _, [] => .ok []
  | depth, e :: es => do
    let l ← Line.of g flags depth e
    let more ← linesOf g flags (depthAfter depth e) es
    return l :: more

theorem linesOf_cons (depth : Int) (e : Event) (es : List Event) :
    linesOf g flags depth (e :: es) =
      (Line.of g flags depth e).bind fun l =>
        (linesOf g flags (depthAfter depth e) es).map (l :: ·) := by
  simp only [linesOf, bind, Except.bind]
  cases Line.of g flags depth e with
  | error fault => rfl
  | ok l => cases linesOf g flags (depthAfter depth e) es <;> rfl

theorem linesOf_cons_eq_ok {depth : Int} {e : Event} {es : List Event} {ls : List Line} :
    linesOf g flags depth (e :: es) = .ok ls ↔
      ∃ l more, Line.of g flags depth e = .ok l ∧
        linesOf g flags (depthAfter depth e) es = .ok more ∧ ls = l :: more := by
  rw [linesOf_cons]
  cases Line.of g flags depth e with
  | error fault => simp [Except.bind]
  | ok l =>
    cases linesOf g flags (depthAfter depth e) es with
    | error fault => simp [Except.bind, Except.map]
    | ok more => simp [Except.bind, Except.map, eq_comm]

theorem events_of_linesOf {depth : Int} {es : List Event} {ls : List Line}
    (h : linesOf g flags depth es = .ok ls) : ls.map Line.event = es := by
  induction es generalizing depth ls with
  | nil => cases h; rfl
  | cons e es ih =>
    obtain ⟨l, more, hl, hmore, rfl⟩ := linesOf_cons_eq_ok.mp h
    rw [List.map_cons, Line.event_of hl, ih hmore]

/-- The contributions in lines are those of the nodes visited, one for one. -/
theorem contributions_of_linesOf {depth : Int} {es : List Event} {ls : List Line}
    (h : linesOf g flags depth es = .ok ls) :
    List.Forall₂ (fun o c => Contribution.of g flags o.node = .ok c)
      (Walk.signalled .visit es) (ls.filterMap Line.contribution) := by
  induction es generalizing depth ls with
  | nil => cases h; exact .nil
  | cons e es ih =>
    obtain ⟨l, more, hl, hmore, rfl⟩ := linesOf_cons_eq_ok.mp h
    have hrest := ih hmore
    obtain ⟨signal, o⟩ := e
    cases signal with
    | enter => cases hl; exact hrest
    | visit =>
      obtain ⟨c, hc, rfl⟩ := Line.of_visit_eq_ok.mp hl
      exact .cons hc hrest
    | leave => cases hl; exact hrest

/-- Each line is that of its event, with some number of scopes open before it. -/
theorem line_of_mem {depth : Int} {es : List Event} {ls : List Line}
    (h : linesOf g flags depth es = .ok ls) {l : Line} (hl : l ∈ ls) :
    ∃ depth, Line.of g flags depth l.event = .ok l := by
  induction es generalizing depth ls with
  | nil =>
    cases h
    cases hl
  | cons e es ih =>
    obtain ⟨first, more, hfirst, hmore, rfl⟩ := linesOf_cons_eq_ok.mp h
    rcases List.mem_cons.mp hl with rfl | hl
    · exact ⟨depth, by rw [Line.event_of hfirst, hfirst]⟩
    · exact ih hmore hl

theorem contribution_of_visit {depth : Int} {es : List Event} {ls : List Line}
    (h : linesOf g flags depth es = .ok ls) {l : Line} (hl : l ∈ ls) (hvisit : l.signal = .visit) :
    ∃ c, Contribution.of g flags l.node = .ok c ∧ l.contribution = some c := by
  obtain ⟨_, hof⟩ := line_of_mem h hl
  obtain ⟨signal, o, n, contribution⟩ := l
  cases hvisit
  obtain ⟨c, hc, heq⟩ := Line.of_visit_eq_ok.mp hof
  cases heq
  exact ⟨c, hc, rfl⟩

/-- What is read off the contributions of lines can be read off the nodes visited. -/
theorem map_contributions {β : Type} {f : Occurrence → β} {h : Contribution → β}
    (hread : ∀ o c, Contribution.of g flags o.node = .ok c → f o = h c) {depth : Int}
    {es : List Event} {ls : List Line} (hls : linesOf g flags depth es = .ok ls) :
    (ls.filterMap Line.contribution).map h = (Walk.signalled .visit es).map f := by
  have hsame : List.Forall₂ (· = ·) ((Walk.signalled .visit es).map f)
      ((ls.filterMap Line.contribution).map h) := by
    rw [List.forall₂_map_left_iff, List.forall₂_map_right_iff]
    exact (contributions_of_linesOf hls).imp hread
  rw [List.forall₂_eq_eq_eq] at hsame
  exact hsame.symm

theorem exists_contribution {depth : Int} {es : List Event} {ls : List Line}
    (h : linesOf g flags depth es = .ok ls) {o : Occurrence} (ho : o ∈ Walk.signalled .visit es) :
    ∃ c, Contribution.of g flags o.node = .ok c := by
  have hmap := map_contributions (h := Except.ok) (fun o c hc => hc) h
  have hmem := List.mem_map_of_mem (f := fun o => Contribution.of g flags o.node) ho
  rw [← hmap] at hmem
  obtain ⟨c, -, hc⟩ := List.mem_map.mp hmem
  exact ⟨c, hc.symm⟩

/-! ### What the recorder does -/

theorem record_eq (t : Trace) (e : Event) :
    record g flags t e =
      match Line.of g flags t.depth e with
      | .ok l => (⟨depthAfter t.depth e, t.lines.push l⟩, none)
      | .error fault => (t, some fault) := by
  obtain ⟨signal, o⟩ := e
  cases signal with
  | enter => rfl
  | visit =>
    simp only [record, Contribution.under_some, Line.of, depthAfter]
    cases Contribution.of g flags (Event.node ⟨.visit, o⟩) <;> rfl
  | leave => rfl

theorem feed_record_of_ok {t : Trace} {es : List Event} {ls : List Line}
    (h : linesOf g flags t.depth es = .ok ls) :
    feed (record g flags) t es = (⟨es.foldl depthAfter t.depth, t.lines ++ ls⟩, none) := by
  induction es generalizing t ls with
  | nil => cases h; simp [feed]
  | cons e es ih =>
    obtain ⟨l, more, hl, hmore, rfl⟩ := linesOf_cons_eq_ok.mp h
    have hr : record g flags t e = (⟨depthAfter t.depth e, t.lines.push l⟩, none) := by
      rw [record_eq, hl]
    simp only [feed, hr]
    have hp : t.lines.push l ++ more = t.lines ++ (l :: more) := Array.toList_inj.mp (by simp)
    rw [ih (t := ⟨depthAfter t.depth e, t.lines.push l⟩) hmore, List.foldl_cons, hp]

theorem feed_record_of_error {t : Trace} {es : List Event} {fault : Fault}
    (h : linesOf g flags t.depth es = .error fault) :
    (feed (record g flags) t es).2 = some fault := by
  induction es generalizing t with
  | nil => cases h
  | cons e es ih =>
    rw [linesOf_cons] at h
    cases hl : Line.of g flags t.depth e with
    | error fault' =>
      have hr : record g flags t e = (t, some fault') := by rw [record_eq, hl]
      rw [hl] at h
      cases h
      simp only [feed, hr]
    | ok l =>
      have hr : record g flags t e = (⟨depthAfter t.depth e, t.lines.push l⟩, none) := by
        rw [record_eq, hl]
      simp only [feed, hr]
      refine ih ?_
      rw [hl] at h
      cases hm : linesOf g flags (depthAfter t.depth e) es with
      | error fault' => simp only [Except.bind, hm] at h; cases h; rfl
      | ok more => simp only [Except.bind, hm] at h; cases h

/-- The trace of a tree has the lines of what the walk reports.  It fails with the
first contribution that does, and else with the walk. -/
theorem ofTree_eq (g : Grammar) (flags : Flags) (tree : Value) :
    ofTree g flags tree =
      (linesOf g flags 0 (describeTree g tree).events).bind fun ls =>
        match (describeTree g tree).fault with
        | none => .ok ls
        | some fault => .error fault := by
  rw [ofTree, walk, Walk.walk_eq_feed, Walk.Report.feed]
  cases hls : linesOf g flags 0 (describeTree g tree).events with
  | error fault =>
    have hf := feed_record_of_error (t := empty) hls
    rcases hw : feed (record g flags) empty (describeTree g tree).events with ⟨t, fault'⟩
    rw [hw] at hf
    cases hf
    rfl
  | ok ls =>
    rw [feed_record_of_ok (t := empty) hls]
    cases (describeTree g tree).fault <;> simp [Except.bind, Walk.Outcome.andThen, empty]

theorem ofTree_eq_ok {tree : Value} {ls : List Line} :
    ofTree g flags tree = .ok ls ↔
      (describeTree g tree).fault = none ∧
        linesOf g flags 0 (describeTree g tree).events = .ok ls := by
  rw [ofTree_eq]
  cases linesOf g flags 0 (describeTree g tree).events with
  | error fault => simp [Except.bind]
  | ok ls' => cases (describeTree g tree).fault <;> simp [Except.bind]

end Trace

end Estree
