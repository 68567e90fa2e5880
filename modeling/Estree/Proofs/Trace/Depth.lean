import Estree.Proofs.Trace.Lines
import Estree.Proofs.Walk.Nesting
import Estree.Proofs.Walk.Session

/-!
Depths of the lines of a trace.

The recorder counts the scopes that are open, and the walk keeps them on a stack of its
own.  In a walk that comes to its end the count is that of the nodes above that open a
scope, `levelled_describeTree`, wherever the count began.  Between walks it goes on from
call to call, and no call that fails moves it.
-/

namespace Estree

namespace Walk

variable {g : Grammar} {tree : Value}

/-! ### Nodes above a node -/

/-- The node at the end of a path from the root opens a scope. -/
def opensAt (g : Grammar) (tree : Value) (path : List Slot) : Bool :=
  ((node? g tree path).map (opens g)).getD false

/-- The number of nodes strictly above the end of a path that open a scope. -/
def scopesAbove (g : Grammar) (tree : Value) (path : List Slot) : Nat :=
  (List.range path.length).countP fun n => opensAt g tree (path.take n)

theorem scopesAbove_child (path : List Slot) (s : Slot) :
    scopesAbove g tree (path ++ [s]) =
      scopesAbove g tree path + if opensAt g tree path then 1 else 0 := by
  have habove : (List.range path.length).countP (fun n => opensAt g tree ((path ++ [s]).take n)) =
      scopesAbove g tree path := by
    refine List.countP_congr fun n hn => ?_
    have hle : n ≤ path.length := Nat.le_of_lt (List.mem_range.mp hn)
    rw [List.take_append_of_le_length hle]
  have hself : (path ++ [s]).take path.length = path := List.take_left
  rw [scopesAbove, List.length_append, List.length_singleton, List.range_succ,
    List.countP_append, habove, List.countP_singleton, hself]

theorem below?_append (node : Value) (path : List Slot) (s : Slot) :
    below? g node (path ++ [s]) =
      (below? g node path).bind fun w => w.childAt? (g.lookup w.type?).children s := by
  induction path generalizing node with
  | nil =>
    show (node.childAt? _ s).bind (fun child => some child) = node.childAt? _ s
    exact Option.bind_fun_some _
  | cons t path ih =>
    simp only [List.cons_append, below?, ih, Option.bind_assoc]

theorem node?_child {o : Occurrence} {r : Rule} {cs : List (Slot × Value)}
    (ho : node? g tree o.path = some o.node) (rule : ruleOf g o.node = some r)
    (found : o.node.children r.children = .ok cs) {c : Occurrence} (hc : c ∈ cs.map o.child) :
    node? g tree c.path = some c.node := by
  obtain ⟨d, hd, rfl⟩ := List.mem_map.mp hc
  have hslot := (mem_children found).mp hd
  obtain ⟨s, rest, top, hpath, htop, hbelow⟩ := node?_eq_some.mp ho
  rw [Occurrence.path_child, hpath]
  refine node?_eq_some.mpr ⟨s, rest ++ [d.1], top, rfl, htop, ?_⟩
  rw [below?_append, hbelow, Option.bind_some, lookup_of_ruleOf rule]
  exact hslot

theorem node?_root {c : Occurrence} (hc : c ∈ roots tree) : node? g tree c.path = some c.node := by
  obtain ⟨d, hd, rfl⟩ := List.mem_map.mp hc
  have hslot := (mem_children (children_frame tree)).mp hd
  exact node?_eq_some.mpr ⟨d.1, [], d.2, rfl, hslot, rfl⟩

theorem opensAt_of_node? {o : Occurrence} (ho : node? g tree o.path = some o.node) :
    opensAt g tree o.path = opens g o.node := by
  rw [opensAt, ho]
  rfl

/-! ### Visits after openings -/

/-- A visit comes right after the opening of a scope of its node exactly if the node
opens one.  The event before the first is given. -/
def Preceded (g : Grammar) : Option Event → List Event → Prop
  | _, [] => True
  | last, e :: es =>
    (e.signal = .visit → (opens g e.node = true ↔ last = some ⟨.enter, e.occurrence⟩)) ∧
      Preceded g (some e) es

theorem preceded_append {last : Option Event} {as bs : List Event} :
    Preceded g last (as ++ bs) ↔ Preceded g last as ∧ Preceded g (as.getLast?.or last) bs := by
  induction as generalizing last with
  | nil => simp [Preceded]
  | cons e as ih =>
    have hlast : ((e :: as).getLast?.or last) = as.getLast?.or (some e) := by
      rw [List.getLast?_cons]
      cases as.getLast? <;> rfl
    rw [List.cons_append, Preceded, ih, Preceded, hlast, and_assoc]

def NotEntered (last : Option Event) : Prop := ∀ e, last = some e → e.signal ≠ .enter

theorem preceded_describeTree (g : Grammar) (tree : Value) :
    Preceded g none (describeTree g tree).events := by
  -- Between the events at one node and those at the next, no scope has just been opened.
  have hall : ∀ last, NotEntered last →
      Preceded g last (describeTree g tree).events ∧
        NotEntered ((describeTree g tree).events.getLast?.or last) := by
    refine describeTree_events (P := fun es => ∀ last, NotEntered last →
      Preceded g last es ∧ NotEntered (es.getLast?.or last)) ?_ ?_ ?_ ?_ tree
    · intro last hlast
      exact ⟨trivial, hlast⟩
    · intro as bs has hbs last hlast
      have ha := has last hlast
      have hb := hbs _ ha.2
      rw [preceded_append, List.getLast?_append, Option.or_assoc]
      exact ⟨⟨ha.1, hb.1⟩, hb.2⟩
    · intro o last hlast
      have hvisited : NotEntered (some ⟨.visit, o⟩) := by
        intro e he
        cases he
        exact nofun
      cases ho : opens g o.node with
      | true =>
        have hopens : opens g (Event.node ⟨.visit, o⟩) = true := ho
        exact ⟨⟨nofun, fun _ => ⟨fun _ => rfl, fun _ => hopens⟩, trivial⟩, hvisited⟩
      | false =>
        have hopens : opens g (Event.node ⟨.visit, o⟩) = false := ho
        refine ⟨⟨fun _ => ?_, trivial⟩, hvisited⟩
        rw [hopens]
        exact ⟨nofun, fun he => absurd rfl (hlast _ he)⟩
    · intro o last hlast
      cases opens g o.node with
      | true =>
        refine ⟨⟨nofun, trivial⟩, ?_⟩
        intro e he
        cases he
        exact nofun
      | false => exact ⟨trivial, hlast⟩
  exact (hall none nofun).1

theorem logged_projects {σ : Type} (c : Consumer σ) : c.logged.Projects Prod.fst c :=
  fun _ _ => rfl

end Walk

theorem Contribution.opens_of {g : Grammar} {flags : Flags} {node : Value} {c : Contribution}
    (h : Contribution.of g flags node = .ok c) : Walk.opens g node = c.opensScope := by
  obtain ⟨-, -, -, -, hscope, -⟩ := Contribution.fields_of h
  cases rule : Walk.ruleOf g node with
  | some r =>
    rw [Walk.lookup_of_ruleOf rule] at hscope
    exact Walk.opens_of_ok rule hscope
  | none =>
    rw [Walk.lookup_of_ruleOf_eq_none rule] at hscope
    rw [Walk.opens_of_none rule]
    exact Except.ok.inj hscope

namespace Trace

open Walk

variable {g : Grammar} {flags : Flags}

/-! ### Levels -/

/-- The depth of the line of an event before which so many scopes are open. -/
def depthOf (depth : Int) (e : Event) : Int :=
  match e.signal with
  | .leave => depth - 1
  | _ => depth

theorem Line.depth_of {depth : Int} {e : Event} {l : Line}
    (h : Line.of g flags depth e = .ok l) : l.depth = depthOf depth e := by
  obtain ⟨signal, o⟩ := e
  cases signal with
  | enter => cases h; rfl
  | visit =>
    obtain ⟨c, -, rfl⟩ := Line.of_visit_eq_ok.mp h
    rfl
  | leave => cases h; rfl

/-- The lines of events have depths that can be told from the events. -/
def Levelled (level : Event → Int) : Int → List Event → Prop
  | _, [] => True
  | depth, e :: es => depthOf depth e = level e ∧ Levelled level (depthAfter depth e) es

variable {level : Event → Int}

theorem levelled_append {depth : Int} {as bs : List Event} :
    Levelled level depth (as ++ bs) ↔
      Levelled level depth as ∧ Levelled level (as.foldl depthAfter depth) bs := by
  induction as generalizing depth with
  | nil => simp [Levelled]
  | cons e as ih => rw [List.cons_append, Levelled, ih, Levelled, and_assoc, List.foldl_cons]

theorem depth_of_linesOf {depth : Int} {es : List Event} {ls : List Line}
    (hlevel : Levelled level depth es) (h : linesOf g flags depth es = .ok ls) :
    ∀ l ∈ ls, l.depth = level l.event := by
  induction es generalizing depth ls with
  | nil => cases h; exact List.forall_mem_nil _
  | cons e es ih =>
    obtain ⟨l, more, hl, hmore, rfl⟩ := linesOf_cons_eq_ok.mp h
    refine List.forall_mem_cons.mpr ⟨?_, ih hlevel.2 hmore⟩
    rw [Line.depth_of hl, Line.event_of hl]
    exact hlevel.1

/-- The depth moves with the scopes that are opened and closed. -/
theorem foldl_depthAfter (es : List Event) (depth : Int) :
    es.foldl depthAfter depth =
      depth + (signalled .enter es).length - (signalled .leave es).length := by
  induction es generalizing depth with
  | nil => simp
  | cons e es ih =>
    obtain ⟨signal, o⟩ := e
    rw [List.foldl_cons, ih, signalled_cons, signalled_cons]
    cases signal with
    | enter =>
      show depth + 1 + _ - _ = depth + ((o :: signalled .enter es).length : Int) - _
      rw [List.length_cons]
      simp only [reduceCtorEq, if_false]
      omega
    | visit => simp [depthAfter]
    | leave =>
      show depth - 1 + _ - _ = depth + _ - ((o :: signalled .leave es).length : Int)
      rw [List.length_cons]
      simp only [reduceCtorEq, if_false]
      omega

theorem foldl_depthAfter_of_balanced {r : Report} (hr : r.Balanced) (h : r.fault = none)
    (depth : Int) : r.events.foldl depthAfter depth = depth := by
  obtain ⟨hpaired, hend⟩ := hr []
  have hlength := (perm_of_paired hpaired).length_eq
  rw [hend h, List.nil_append, List.append_nil] at hlength
  rw [foldl_depthAfter]
  omega

/-- The number of nodes above that of an event that open a scope, and the node itself if
it is visited within its own. -/
def levelIn (g : Grammar) (tree : Value) (e : Event) : Int :=
  scopesAbove g tree e.occurrence.path + if e.signal = .visit ∧ opens g e.node then 1 else 0

theorem levelled_flatMap {os : List Occurrence} {depth : Int}
    (hos : ∀ c ∈ os, (describe g c).fault = none)
    (h : ∀ c ∈ os, Levelled level depth (describe g c).events) :
    Levelled level depth (os.flatMap fun c => (describe g c).events) ∧
      (os.flatMap fun c => (describe g c).events).foldl depthAfter depth = depth := by
  induction os with
  | nil => exact ⟨trivial, rfl⟩
  | cons c os ih =>
    have hback := foldl_depthAfter_of_balanced (balanced_describe g c)
      (hos c List.mem_cons_self) depth
    obtain ⟨hrest, hend⟩ := ih (fun d hd => hos d (List.mem_cons_of_mem c hd))
      fun d hd => h d (List.mem_cons_of_mem c hd)
    rw [List.flatMap_cons, levelled_append, List.foldl_append, hback]
    exact ⟨⟨h c List.mem_cons_self, hrest⟩, hend⟩

theorem levelled_describe {tree : Value} (o : Occurrence) (h : (describe g o).fault = none) :
    node? g tree o.path = some o.node →
      Levelled (levelIn g tree) (scopesAbove g tree o.path) (describe g o).events := by
  induction o, h using complete_induction g with
  | skip o h rule hd =>
    intro _
    rw [hd]
    trivial
  | descend o h r opens os rule scope found hd hos ih =>
    intro ho
    obtain ⟨cs, hcs, rfl⟩ := Occurrence.children_eq_ok.mp found
    have hopens : Walk.opens g o.node = opens := opens_of_ok rule scope
    have hbelow : ∀ c ∈ cs.map o.child, Levelled (levelIn g tree)
        (scopesAbove g tree o.path + if opens then 1 else 0) (describe g c).events := by
      intro c hc
      have hc' := ih c hc (node?_child ho rule hcs hc)
      obtain ⟨d, -, rfl⟩ := List.mem_map.mp hc
      rw [Occurrence.path_child, scopesAbove_child, opensAt_of_node? ho, hopens] at hc'
      have hcast : ((scopesAbove g tree o.path + if opens then 1 else 0 : Nat) : Int) =
          scopesAbove g tree o.path + if opens then 1 else 0 := by
        cases opens <;> rfl
      rw [hcast] at hc'
      exact hc'
    obtain ⟨hmid, hend⟩ := levelled_flatMap hos hbelow
    rw [hd, levelled_append, levelled_append, List.foldl_append]
    cases opens with
    | true =>
      have hfold : (entering true o).foldl depthAfter (scopesAbove g tree o.path : Int) =
          scopesAbove g tree o.path + 1 := rfl
      rw [if_pos rfl] at hmid hend
      rw [hfold, hend]
      refine ⟨⟨⟨?_, ?_, trivial⟩, hmid⟩, ?_, trivial⟩
      · simp [depthOf, levelIn]
      · simp [depthOf, depthAfter, levelIn, Event.node, hopens]
      · simp [depthOf, levelIn]
    | false =>
      have hfold : (entering false o).foldl depthAfter (scopesAbove g tree o.path : Int) =
          scopesAbove g tree o.path := rfl
      rw [if_neg Bool.false_ne_true, Int.add_zero] at hmid
      rw [hfold]
      refine ⟨⟨⟨?_, trivial⟩, hmid⟩, trivial⟩
      simp [depthOf, levelIn, Event.node, hopens]

theorem levelled_describeTree {tree : Value} (h : (describeTree g tree).fault = none) :
    Levelled (levelIn g tree) 0 (describeTree g tree).events := by
  have hos := describeTree_fault_eq_none.mp h
  rw [events_describeTree h]
  refine (levelled_flatMap hos fun o ho => ?_).1
  have hlevel := levelled_describe o (hos o ho) (node?_root ho)
  obtain ⟨c, -, rfl⟩ := List.mem_map.mp ho
  exact hlevel

/-! ### Recorders that have seen something before -/

def Line.raised (n : Int) (l : Line) : Line := { l with depth := l.depth + n }

theorem Line.of_add (depth n : Int) (e : Event) :
    Line.of g flags (depth + n) e = (Line.of g flags depth e).map (Line.raised n) := by
  obtain ⟨signal, o⟩ := e
  cases signal with
  | enter => rfl
  | visit =>
    simp only [Line.of]
    cases Contribution.of g flags (Event.node ⟨.visit, o⟩) <;> rfl
  | leave =>
    show Except.ok _ = Except.ok _
    have hdepth : depth + n - 1 = depth - 1 + n := by omega
    rw [hdepth]
    rfl

theorem depthAfter_add (depth n : Int) (e : Event) :
    depthAfter (depth + n) e = depthAfter depth e + n := by
  obtain ⟨signal, o⟩ := e
  cases signal <;> simp only [depthAfter] <;> omega

theorem linesOf_add (depth n : Int) (es : List Event) :
    linesOf g flags (depth + n) es =
      (linesOf g flags depth es).map (List.map (Line.raised n)) := by
  induction es generalizing depth with
  | nil => rfl
  | cons e es ih =>
    rw [linesOf_cons, linesOf_cons, Line.of_add, depthAfter_add, ih]
    cases Line.of g flags depth e with
    | error fault => rfl
    | ok l => cases linesOf g flags (depthAfter depth e) es <;> rfl

/-- A walk that comes to its end adds the lines of the tree to what the recorder has. -/
theorem walk_eq_none_iff {tree : Value} {t next : Trace} :
    walk g flags tree t = (next, none) ↔
      ∃ ls, ofTree g flags tree = .ok ls ∧
        next = ⟨t.depth, t.lines ++ ls.map (Line.raised t.depth)⟩ := by
  have hlines : linesOf g flags (0 + t.depth) (describeTree g tree).events =
      (linesOf g flags 0 (describeTree g tree).events).map (List.map (Line.raised t.depth)) :=
    linesOf_add 0 t.depth _
  rw [Int.zero_add] at hlines
  have hwalk : walk g flags tree t = (describeTree g tree).feed (record g flags) t :=
    walk_eq_feed g tree (record g flags) t
  rw [hwalk, Report.feed, ofTree_eq]
  cases hls : linesOf g flags 0 (describeTree g tree).events with
  | error fault =>
    rw [hls] at hlines
    have hfail := feed_record_of_error (t := t) hlines
    rcases hfeed : feed (record g flags) t (describeTree g tree).events with ⟨own, fault'⟩
    rw [hfeed] at hfail
    cases hfail
    simp [Outcome.andThen, Except.bind]
  | ok ls =>
    rw [hls] at hlines
    rw [feed_record_of_ok (t := t) hlines]
    cases hf : (describeTree g tree).fault with
    | some fault => simp [Except.bind, Outcome.andThen]
    | none =>
      rw [foldl_depthAfter_of_balanced (balanced_describeTree g tree) hf]
      simp [Except.bind, Outcome.andThen, eq_comm]

/-! ### Whole lives -/

/-- The depth is what it was at the start, with the calls that opened and closed scopes,
and the lines from before are still there. -/
def GoesOn (start : Trace) (s : Trace × List Event) : Prop :=
  s.1.depth = start.depth + (signalled .enter s.2).length - (signalled .leave s.2).length ∧
    start.lines.toList <+: s.1.lines.toList

theorem goesOn_record (start : Trace) (s : Trace × List Event) (e : Event)
    (h : GoesOn start s) : GoesOn start ((record g flags).logged s e).1 := by
  obtain ⟨t, past⟩ := s
  obtain ⟨hdepth, hlines⟩ := h
  have hpush : ∀ l : Line, start.lines.toList <+: (t.lines.push l).toList := by
    intro l
    rw [Array.toList_push]
    exact hlines.trans (List.prefix_append _ _)
  obtain ⟨signal, o⟩ := e
  simp only at hdepth
  cases signal with
  | enter =>
    refine ⟨?_, hpush _⟩
    simp only [Consumer.logged, record, signalled_cons, if_true, reduceCtorEq, if_false,
      List.length_cons]
    omega
  | visit =>
    simp only [Consumer.logged, GoesOn, signalled_cons, reduceCtorEq, if_false, record,
      Contribution.under_some]
    cases Contribution.of g flags (Event.node ⟨.visit, o⟩) with
    | ok c => exact ⟨hdepth, hpush _⟩
    | error fault => exact ⟨hdepth, hlines⟩
  | leave =>
    refine ⟨?_, hpush _⟩
    simp only [Consumer.logged, record, signalled_cons, if_true, reduceCtorEq, if_false,
      List.length_cons]
    omega

theorem goesOn_session (t : Trace) (steps : List Step) :
    GoesOn t (session (record g flags).logged (t, []) steps) := by
  have hstart : GoesOn t (t, []) := ⟨by simp, List.prefix_rfl⟩
  exact session_keeps (P := GoesOn t) (goesOn_record t) hstart steps

/-- In the trace of a tree the depth of an event is the number of nodes strictly above its
own that open a scope, and one more at the visit of a node that opens one; these are the
visits that come right after the opening of a scope of the same node.  A recorder in any
state comes to the end of a walk exactly if the tree has a trace; it adds the lines of
that trace, deeper by its own depth, which it keeps.  Whatever calls are made and trees
walked, failing or not, the depth moves by one for each opening and each closing that was
called, and no line is lost; a visit that fails changes nothing. -/
theorem depth_counts_scopes (g : Grammar) (flags : Flags) :
    (∀ tree ls, ofTree g flags tree = .ok ls →
      (∀ l ∈ ls, node? g tree l.occurrence.path = some l.node ∧
        l.depth = scopesAbove g tree l.occurrence.path +
          if l.signal = .visit ∧ opens g l.node then 1 else 0) ∧
      ∀ before l after, ls = before ++ l :: after → l.signal = .visit →
        ∃ c, l.contribution = some c ∧
          (c.opensScope = true ↔
            ∃ p, before.getLast? = some p ∧ p.signal = .enter ∧ p.occurrence = l.occurrence)) ∧
    (∀ tree t next, walk g flags tree t = (next, none) ↔
      ∃ ls, ofTree g flags tree = .ok ls ∧
        next = ⟨t.depth, t.lines ++ ls.map (Line.raised t.depth)⟩) ∧
    (∀ t steps,
      let s := session (record g flags).logged (t, []) steps
      session (record g flags) t steps = s.1 ∧
        s.1.depth =
          t.depth + (signalled .enter s.2).length - (signalled .leave s.2).length ∧
        t.lines.toList <+: s.1.lines.toList) ∧
    ∀ t o fault, Contribution.of g flags o.node = .error fault →
      record g flags t ⟨.visit, o⟩ = (t, some fault) := by
  refine ⟨fun tree ls h => ?_, fun tree t next => walk_eq_none_iff, fun t steps => ?_,
    fun t o fault h => ?_⟩
  · obtain ⟨hf, hls⟩ := ofTree_eq_ok.mp h
    have hevents := events_of_linesOf hls
    refine ⟨fun l hl => ⟨?_, depth_of_linesOf (levelled_describeTree hf) hls l hl⟩, ?_⟩
    · have hmem : l.event ∈ (describeTree g tree).events := hevents ▸ List.mem_map_of_mem hl
      have hvisited := occurrence_mem_visited hf hmem
      rw [signalled_describeTree hf] at hvisited
      exact ((mem_visitedTree hf _).mp hvisited).2
    · intro before l after hsplit hvisit
      obtain ⟨c, hc, hcontribution⟩ := contribution_of_visit hls (hsplit ▸ by simp) hvisit
      refine ⟨c, hcontribution, ?_⟩
      have hpreceded := preceded_describeTree g tree
      rw [← hevents, hsplit, List.map_append, preceded_append, Option.or_none,
        List.getLast?_map] at hpreceded
      rw [← Contribution.opens_of hc]
      refine (hpreceded.2.1 hvisit).trans ?_
      rw [Option.map_eq_some_iff]
      constructor
      · rintro ⟨p, hp, hpe⟩
        exact ⟨p, hp, congrArg Event.signal hpe, congrArg Event.occurrence hpe⟩
      · rintro ⟨p, hp, hsignal, ho⟩
        exact ⟨p, hp, by rw [Line.event, hsignal, ho]; rfl⟩
  · have hgoes : GoesOn t (session (record g flags).logged (t, []) steps) := goesOn_session t steps
    obtain ⟨hdepth, hlines⟩ := hgoes
    exact ⟨session_of_projects (logged_projects (record g flags)) (t, []) steps, hdepth, hlines⟩
  · simp only [record, Contribution.under_some, Event.node, h]

end Trace

end Estree
