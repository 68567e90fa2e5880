import Estree.Proofs.Grammar.Layers
import Estree.Proofs.Trace.Lines
import Estree.Proofs.Walk.Nesting

/-!
Traces under a grammar and under one with more node types.

The larger grammar adds events only at nodes whose type the smaller one does not know,
and below them.  Such events come in whole segments, with the ends of the scopes that
they open, so leaving them out changes no depth: `ofTree_partOf`.
-/

namespace Estree

open Grammar (PartOf)

namespace Walk

variable {g g' : Grammar}

/-- At or below a node of unknown type, among those that are there. -/
def Outside (g : Grammar) (os : List Occurrence) (o : Occurrence) : Prop :=
  ∃ p ∈ os, p.path <+: o.path ∧ ruleOf g p.node = none

instance (g : Grammar) (os : List Occurrence) (o : Occurrence) : Decidable (Outside g os o) :=
  inferInstanceAs (Decidable (∃ p ∈ os, p.path <+: o.path ∧ ruleOf g p.node = none))

theorem outside_below {os : List Occurrence} {o p : Occurrence} (hp : p.path <+: o.path)
    (h : Outside g os p) : Outside g os o := by
  obtain ⟨q, hq, hqp, hr⟩ := h
  exact ⟨q, hq, hqp.trans hp, hr⟩

theorem ruleOf_of_partOf (h : g.PartOf g') {node : Value} {r : Rule}
    (rule : ruleOf g node = some r) : ruleOf g' node = some r := by
  obtain ⟨type, ht, hr⟩ := Option.bind_eq_some_iff.mp rule
  rw [ruleOf, ht]
  exact h type r hr

theorem ruleOf_eq_none_of_partOf (h : g.PartOf g') {node : Value}
    (rule : ruleOf g' node = none) : ruleOf g node = none := by
  cases hr : ruleOf g node with
  | none => rfl
  | some r =>
    rw [ruleOf_of_partOf h hr] at rule
    cases rule

/-! ### The events that stay -/

def occurrences (es : List Event) : List Occurrence := es.map Event.occurrence

theorem mem_occurrences {es : List Event} {o : Occurrence} :
    o ∈ occurrences es ↔ ∃ e ∈ es, e.occurrence = o := List.mem_map

/-- The events at nodes that are not outside a grammar. -/
def inside (g : Grammar) (es : List Event) : List Event :=
  es.filter fun e => ¬Outside g (occurrences es) e.occurrence

section Children

variable {o : Occurrence} {names : List Entry} {cs : List (Slot × Value)}

/-- Whether a node is outside is settled within the child that it stands below. -/
theorem outside_flatMap (found : o.node.children names = .ok cs)
    (hos : ∀ c ∈ cs.map o.child, (describe g' c).fault = none) {c : Occurrence}
    (hc : c ∈ cs.map o.child) {e : Event} (he : e ∈ (describe g' c).events) :
    Outside g (occurrences ((cs.map o.child).flatMap fun c => (describe g' c).events))
        e.occurrence ↔
      Outside g (occurrences (describe g' c).events) e.occurrence := by
  constructor
  · rintro ⟨p, hp, hpre, hr⟩
    obtain ⟨m, hm, rfl⟩ := mem_occurrences.mp hp
    obtain ⟨d, hd, hmd⟩ := List.mem_flatMap.mp hm
    have habove := (path_prefix_of_mem d (hos d hd) m hmd).trans hpre
    obtain rfl := child_unique found hd hc habove (path_prefix_of_mem c (hos c hc) e he)
    exact ⟨m.occurrence, mem_occurrences.mpr ⟨m, hmd, rfl⟩, hpre, hr⟩
  · rintro ⟨p, hp, hpre, hr⟩
    obtain ⟨m, hm, rfl⟩ := mem_occurrences.mp hp
    exact ⟨m.occurrence, mem_occurrences.mpr ⟨m, List.mem_flatMap.mpr ⟨c, hc, hm⟩, rfl⟩, hpre, hr⟩

theorem inside_flatMap (found : o.node.children names = .ok cs)
    (hos : ∀ c ∈ cs.map o.child, (describe g' c).fault = none) :
    inside g ((cs.map o.child).flatMap fun c => (describe g' c).events) =
      (cs.map o.child).flatMap fun c => inside g (describe g' c).events := by
  rw [inside, List.filter_flatMap]
  refine List.flatMap_congr fun c hc => List.filter_congr fun e he => ?_
  simp only [outside_flatMap found hos hc he]

end Children

theorem outside_node {o p : Occurrence} {opens : Bool} {es : List Event} {r : Rule}
    (rule : ruleOf g o.node = some r) :
    Outside g (occurrences (entering opens o ++ es ++ leaving opens o)) p ↔
      Outside g (occurrences es) p := by
  constructor
  · rintro ⟨q, hq, hpre, hr⟩
    obtain ⟨m, hm, rfl⟩ := mem_occurrences.mp hq
    have hne : m.occurrence ≠ o := fun he => by rw [he, rule] at hr; cases hr
    rw [List.mem_append, List.mem_append] at hm
    rcases hm with (hm | hm) | hm
    · exact absurd (occurrence_of_mem_entering hm) hne
    · exact ⟨m.occurrence, mem_occurrences.mpr ⟨m, hm, rfl⟩, hpre, hr⟩
    · exact absurd (occurrence_of_mem_leaving hm) hne
  · rintro ⟨q, hq, hpre, hr⟩
    obtain ⟨m, hm, rfl⟩ := mem_occurrences.mp hq
    refine ⟨m.occurrence, mem_occurrences.mpr ⟨m, ?_, rfl⟩, hpre, hr⟩
    exact List.mem_append_left _ (List.mem_append_right _ hm)

/-- The events of a node of known type stay, around those that stay below it. -/
theorem inside_node {o : Occurrence} {opens : Bool} {es : List Event} {r : Rule}
    (rule : ruleOf g o.node = some r) (below : ∀ e ∈ es, ¬e.occurrence.path <+: o.path) :
    inside g (entering opens o ++ es ++ leaving opens o) =
      entering opens o ++ inside g es ++ leaving opens o := by
  have hself : ¬Outside g (occurrences es) o := by
    rintro ⟨p, hp, hpre, -⟩
    obtain ⟨m, hm, rfl⟩ := mem_occurrences.mp hp
    exact below m hm hpre
  simp only [inside, outside_node rule, List.filter_append]
  congr 1
  · congr 1
    refine List.filter_eq_self.mpr fun e he => ?_
    rw [occurrence_of_mem_entering he]
    simpa using hself
  · refine List.filter_eq_self.mpr fun e he => ?_
    rw [occurrence_of_mem_leaving he]
    simpa using hself

theorem inside_unknown {o : Occurrence} {es : List Event} (rule : ruleOf g o.node = none)
    (ho : o ∈ occurrences es) (below : ∀ e ∈ es, o.path <+: e.occurrence.path) :
    inside g es = [] := by
  refine List.filter_eq_nil_iff.mpr fun e he => ?_
  have hout : Outside g (occurrences es) e.occurrence := ⟨o, ho, below e he, rule⟩
  simpa using hout

/-- Under a part of a grammar what is reported of a node is what stays of the report
under the whole. -/
theorem describe_partOf (h : g.PartOf g') (o : Occurrence) (hf : (describe g' o).fault = none) :
    describe g o = ⟨inside g (describe g' o).events, none⟩ := by
  induction o, hf using complete_induction g' with
  | skip o hf rule hd =>
    rw [describe_skip (ruleOf_eq_none_of_partOf h rule), hd]
    rfl
  | descend o hf r opens os rule scope found hd hos ih =>
    cases hr : ruleOf g o.node with
    | none =>
      have ho : o ∈ occurrences (describe g' o).events := by
        refine mem_occurrences.mpr ⟨⟨.visit, o⟩, ?_, rfl⟩
        rw [hd]
        exact List.mem_append_left _ (List.mem_append_left _ (visit_mem_entering opens o))
      rw [describe_skip hr, inside_unknown hr ho (path_prefix_of_mem o hf)]
      rfl
    | some r' =>
      obtain rfl : r = r' := by
        rw [ruleOf_of_partOf h hr] at rule
        cases rule
        rfl
      obtain ⟨cs, hcs, rfl⟩ := Occurrence.children_eq_ok.mp found
      have hfault : (describeAll g (cs.map o.child)).fault = none :=
        describeAll_fault_eq_none.mpr fun c hc => by rw [ih c hc]
      have hevents : (describeAll g (cs.map o.child)).events =
          inside g ((cs.map o.child).flatMap fun c => (describe g' c).events) := by
        rw [inside_flatMap hcs hos, events_describeAll hfault]
        exact List.flatMap_congr fun c hc => by rw [ih c hc]
      have hbelow : ∀ e ∈ (cs.map o.child).flatMap fun c => (describe g' c).events,
          ¬e.occurrence.path <+: o.path := by
        intro e he hpre
        obtain ⟨c, hc, he⟩ := List.mem_flatMap.mp he
        obtain ⟨d, -, rfl⟩ := List.mem_map.mp hc
        have hlen := ((path_prefix_of_mem _ (hos _ hc) e he).trans hpre).length_le
        rw [Occurrence.path_child, List.length_append, List.length_singleton] at hlen
        omega
      rw [describe_descend hr scope found, hd, inside_node hr hbelow,
        Report.append_of_none rfl, Report.append_of_none hfault, hevents, List.append_assoc]

theorem describeTree_partOf (h : g.PartOf g') {tree : Value}
    (hf : (describeTree g' tree).fault = none) :
    describeTree g tree = ⟨inside g (describeTree g' tree).events, none⟩ := by
  have hos := describeTree_fault_eq_none.mp hf
  have hparts : ∀ o ∈ roots tree, describe g o = ⟨inside g (describe g' o).events, none⟩ :=
    fun o ho => describe_partOf h o (hos o ho)
  have hfault : (describeTree g tree).fault = none :=
    describeTree_fault_eq_none.mpr fun o ho => by rw [hparts o ho]
  refine Report.ext ?_ hfault
  rw [events_describeTree hfault, events_describeTree hf, roots, ← frame,
    inside_flatMap (children_frame tree) hos]
  exact List.flatMap_congr fun o ho => by rw [hparts o ho]

end Walk

/-! ### The lines that stay -/

theorem Contribution.of_congr {g g' : Grammar} {node : Value}
    (h : g.lookup node.type? = g'.lookup node.type?) (flags : Flags) :
    Contribution.of g flags node = Contribution.of g' flags node := by
  simp only [Contribution.of, h]

namespace Trace

open Walk

variable {g g' : Grammar} {flags : Flags}

theorem Line.of_congr {e : Event} (h : g.lookup e.node.type? = g'.lookup e.node.type?)
    (depth : Int) : Line.of g flags depth e = Line.of g' flags depth e := by
  simp only [Line.of, Contribution.of_congr h]

/-- In events that pair their scopes the depth is the number of open scopes. -/
theorem depthAfter_length {scopes : List Occurrence} {e : Event}
    (h : e.signal = .leave → scopes.head? = some e.occurrence) :
    depthAfter scopes.length e = (e.after scopes).length := by
  obtain ⟨signal, o⟩ := e
  cases signal with
  | enter => simp [depthAfter, Event.after]
  | visit => rfl
  | leave =>
    obtain ⟨rest, rfl⟩ := List.head?_eq_some_iff.mp (h rfl)
    simp [depthAfter, Event.after]

/-- Leaving out nodes together with all below them leaves out scopes from their opening
to their end. -/
theorem filter_after {P : Occurrence → Prop} [DecidablePred P] {scopes : List Occurrence}
    {e : Event} (h : e.signal = .leave → scopes.head? = some e.occurrence) :
    (e.after scopes).filter P =
      if P e.occurrence then e.after (scopes.filter P) else scopes.filter P := by
  obtain ⟨signal, o⟩ := e
  cases signal with
  | enter =>
    by_cases hP : P o
    · simp [Event.after, hP]
    · simp [Event.after, hP]
  | visit => simp [Event.after]
  | leave =>
    obtain ⟨rest, rfl⟩ := List.head?_eq_some_iff.mp (h rfl)
    by_cases hP : P o
    · simp [Event.after, hP]
    · simp [Event.after, hP]

theorem linesOf_filter {P : Occurrence → Prop} [DecidablePred P]
    (above : ∀ p o : Occurrence, p.path <+: o.path → P o → P p) {es : List Event}
    (same : ∀ e ∈ es, P e.occurrence → g.lookup e.node.type? = g'.lookup e.node.type?)
    {scopes : List Occurrence} (paired : Paired scopes es) (nested : Nested scopes es)
    {ls : List Line} (h : linesOf g' flags scopes.length es = .ok ls) :
    linesOf g flags (scopes.filter P).length (es.filter fun e => P e.occurrence) =
      .ok (ls.filter fun l => P l.occurrence) := by
  induction es generalizing scopes ls with
  | nil => cases h; rfl
  | cons e es ih =>
    obtain ⟨l, more, hl, hmore, rfl⟩ := linesOf_cons_eq_ok.mp h
    have ho : l.occurrence = e.occurrence := congrArg Event.occurrence (Line.event_of hl)
    rw [depthAfter_length paired.1] at hmore
    have hrest := ih (fun e' he' => same e' (List.mem_cons_of_mem e he')) paired.2 nested.2 hmore
    rw [filter_after paired.1] at hrest
    by_cases hP : P e.occurrence
    · -- All open scopes are of nodes above, so they stay as well.
      have hscopes : scopes.filter P = scopes :=
        List.filter_eq_self.mpr fun s hs => by simpa using above _ _ (nested.1 s hs) hP
      rw [if_pos hP, hscopes] at hrest
      have hleft : (e :: es).filter (fun e => P e.occurrence) =
          e :: es.filter fun e => P e.occurrence := by simp [hP]
      have hright : (l :: more).filter (fun l => P l.occurrence) =
          l :: more.filter fun l => P l.occurrence := by simp [ho, hP]
      rw [hleft, hright, hscopes]
      refine linesOf_cons_eq_ok.mpr ⟨l, _, ?_, ?_, rfl⟩
      · rw [Line.of_congr (same e List.mem_cons_self hP), hl]
      · rw [depthAfter_length paired.1, hrest]
    · rw [if_neg hP] at hrest
      have hleft : (e :: es).filter (fun e => P e.occurrence) =
          es.filter fun e => P e.occurrence := by simp [hP]
      have hright : (l :: more).filter (fun l => P l.occurrence) =
          more.filter fun l => P l.occurrence := by simp [ho, hP]
      rw [hleft, hright, hrest]

theorem lookup_eq_of_partOf (h : g.PartOf g') {node : Value} (rule : ruleOf g node ≠ none) :
    g.lookup node.type? = g'.lookup node.type? := by
  obtain ⟨r, hr⟩ := Option.ne_none_iff_exists'.mp rule
  rw [lookup_of_ruleOf hr, lookup_of_ruleOf (ruleOf_of_partOf h hr)]

theorem linesOf_congr {es : List Event}
    (same : ∀ e ∈ es, g.lookup e.node.type? = g'.lookup e.node.type?) (depth : Int) :
    linesOf g flags depth es = linesOf g' flags depth es := by
  induction es generalizing depth with
  | nil => rfl
  | cons e es ih =>
    rw [linesOf_cons, linesOf_cons, Line.of_congr (same e List.mem_cons_self),
      ih fun e' he' => same e' (List.mem_cons_of_mem e he')]

def inside (g : Grammar) (ls : List Line) : List Line :=
  ls.filter fun l => ¬Outside g (ls.map Line.occurrence) l.occurrence

/-- The trace under a part of a grammar is that under the whole without the events at
and below nodes whose type the part does not know. -/
theorem ofTree_partOf (h : g.PartOf g') {tree : Value} {ls : List Line}
    (hls : ofTree g' flags tree = .ok ls) : ofTree g flags tree = .ok (inside g ls) := by
  obtain ⟨hf, hlines⟩ := ofTree_eq_ok.mp hls
  have hos : ls.map Line.occurrence = occurrences (describeTree g' tree).events := by
    rw [← events_of_linesOf hlines, occurrences, List.map_map]
    rfl
  have hsame : ∀ e ∈ (describeTree g' tree).events,
      ¬Outside g (occurrences (describeTree g' tree).events) e.occurrence →
        g.lookup e.node.type? = g'.lookup e.node.type? := fun e he hin =>
    lookup_eq_of_partOf h fun hr =>
      hin ⟨e.occurrence, mem_occurrences.mpr ⟨e, he, rfl⟩, List.prefix_rfl, hr⟩
  have hkept := linesOf_filter
    (P := fun o => ¬Outside g (occurrences (describeTree g' tree).events) o)
    (fun p o hp hin hout => hin (outside_below hp hout)) hsame
    (balanced_describeTree g' tree []).1 (nested_describeTree hf) hlines
  rw [inside, hos, ofTree_eq_ok, describeTree_partOf h hf]
  exact ⟨rfl, hkept⟩

/-- A tree in which no node of unknown type is visited has the same trace, or fails in
the same way. -/
theorem ofTree_eq_of_known (h : g.PartOf g') {tree : Value}
    (hf : (describeTree g' tree).fault = none)
    (known : ∀ o ∈ signalled .visit (describeTree g' tree).events, ruleOf g o.node ≠ none) :
    ofTree g flags tree = ofTree g' flags tree := by
  have hknown : ∀ e ∈ (describeTree g' tree).events, ruleOf g e.node ≠ none := fun e he =>
    known e.occurrence (occurrence_mem_visited hf he)
  have hall : Walk.inside g (describeTree g' tree).events = (describeTree g' tree).events := by
    refine List.filter_eq_self.mpr fun e _ => ?_
    have hin : ¬Outside g (occurrences (describeTree g' tree).events) e.occurrence := by
      rintro ⟨p, hp, -, hr⟩
      obtain ⟨m, hm, rfl⟩ := mem_occurrences.mp hp
      exact hknown m hm hr
    simpa using hin
  have htree : describeTree g tree = describeTree g' tree := by
    rw [describeTree_partOf h hf, hall]
    exact Report.ext rfl hf.symm
  rw [ofTree_eq, ofTree_eq, htree,
    linesOf_congr fun e he => lookup_eq_of_partOf h (hknown e he)]

/-- If a grammar is part of another and the trace under the larger one succeeds, the
trace under the part does, and has the same lines except those at and below nodes whose
type the part does not know.  The editions have no type in common, so this holds of any
of them among any others, up to the standard grammar, which is all of them; and a tree
in which only ES5 types are visited has one trace under ES5 and the standard grammar. -/
theorem layers_conservative (flags : Flags) (tree : Value) :
    (∀ g g' : Grammar, g.PartOf g' → ∀ ls, ofTree g' flags tree = .ok ls →
      ofTree g flags tree = .ok (inside g ls)) ∧
    ((Grammar.Edition.all.flatMap Grammar.Edition.table).map Prod.fst).Nodup ∧
    (∀ es : List Grammar.Edition,
      (Grammar.ofLayers (es.map Grammar.Edition.layer)).collect.1 = .ok (.ofEditions es)) ∧
    Grammar.ofEditions Grammar.Edition.all = .standard ∧
    (∀ es es' : List Grammar.Edition, es ⊆ es' →
      (Grammar.ofEditions es).PartOf (.ofEditions es') ∧
        ∀ ls, ofTree (.ofEditions es') flags tree = .ok ls →
          ofTree (.ofEditions es) flags tree = .ok (inside (.ofEditions es) ls)) ∧
    ((∀ o ∈ signalled .visit (report .standard tree).events,
        ruleOf (.ofEditions [.es5]) o.node ≠ none) →
      ofTree (.ofEditions [.es5]) flags tree = ofTree .standard flags tree) := by
  refine ⟨fun g g' h ls => ofTree_partOf h, Grammar.nodup_types,
    fun es => (Grammar.yields_ofLayers es).collect, Grammar.ofEditions_all,
    fun es es' h => ⟨Grammar.partOf_ofEditions h, fun ls => ofTree_partOf
      (Grammar.partOf_ofEditions h)⟩, fun known => ?_⟩
  rw [report_eq_describeTree] at known
  have hpart : (Grammar.ofEditions [.es5]).PartOf .standard := by
    rw [← Grammar.ofEditions_all]
    exact Grammar.partOf_ofEditions fun e _ => Grammar.mem_all e
  exact ofTree_eq_of_known hpart
    (describeTree_fault_of_evaluates fun _ node _ _ => evaluates_standard node) known

end Trace

end Estree
