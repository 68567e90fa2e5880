import Estree.Proofs.Trace.Depth
import Estree.Proofs.Trace.Dependencies
import Estree.Proofs.Walk.Contexts

/-!
Traces of trees that are put together.

What a trace says of a node in a context is what the trace of the node alone says, deeper
by the scopes that the context has open there; what the trace says of the context does not
depend on the node, but for what the nodes above it contribute.  Bodies one after another
have their traces one after another: `ofTree_program_append`.
-/

namespace Estree

namespace Trace

open Walk

variable {g : Grammar} {flags : Flags}

/-! ### Lines of events that are moved or joined -/

def Line.map (f : Occurrence → Occurrence) (l : Line) : Line :=
  { l with occurrence := f l.occurrence }

theorem Line.of_map {f : Occurrence → Occurrence} (hf : ∀ o, (f o).node = o.node) (depth : Int)
    (e : Event) :
    Line.of g flags depth (e.map f) = (Line.of g flags depth e).map (Line.map f) := by
  obtain ⟨signal, o⟩ := e
  cases signal with
  | enter => rfl
  | visit =>
    simp only [Event.map, Line.of, Event.node, hf]
    cases Contribution.of g flags o.node <;> rfl
  | leave => rfl

/-- Lines move with their events, as long as the nodes stay the same. -/
theorem linesOf_map {f : Occurrence → Occurrence} (hf : ∀ o, (f o).node = o.node) (depth : Int)
    (es : List Event) :
    linesOf g flags depth (es.map (Event.map f)) =
      (linesOf g flags depth es).map (List.map (Line.map f)) := by
  induction es generalizing depth with
  | nil => rfl
  | cons e es ih =>
    have hdepth : depthAfter depth (e.map f) = depthAfter depth e := rfl
    rw [List.map_cons, linesOf_cons, linesOf_cons, Line.of_map hf, hdepth, ih]
    cases Line.of g flags depth e with
    | error fault => rfl
    | ok l => cases linesOf g flags (depthAfter depth e) es <;> rfl

theorem linesOf_append_eq_ok {depth : Int} {as bs : List Event} {ls : List Line} :
    linesOf g flags depth (as ++ bs) = .ok ls ↔
      ∃ before after, linesOf g flags depth as = .ok before ∧
        linesOf g flags (as.foldl depthAfter depth) bs = .ok after ∧ ls = before ++ after := by
  induction as generalizing depth ls with
  | nil => simp [linesOf, eq_comm]
  | cons e as ih =>
    simp only [List.cons_append, linesOf_cons_eq_ok, ih, List.foldl_cons]
    constructor
    · rintro ⟨l, more, hl, ⟨before, after, hbefore, hafter, rfl⟩, rfl⟩
      exact ⟨_, after, ⟨l, before, hl, hbefore, rfl⟩, hafter, rfl⟩
    · rintro ⟨before, after, ⟨l, more, hl, hmore, rfl⟩, hafter, rfl⟩
      exact ⟨l, _, hl, ⟨more, after, hmore, hafter, rfl⟩, rfl⟩

/-! ### Outlines -/

/-- A line without what the node contributes, and of a node above a hole only the place
and the type. -/
def Line.outline (hole : Place) (l : Line) : Line :=
  { l.map (Occurrence.outline hole) with contribution := none }

/-- The lines of events, but for what the nodes contribute. -/
def bareLines : Int → List Event → List Line
  | _, [] => []
  | depth, e :: es => ⟨e.signal, e.occurrence, depthOf depth e, none⟩ ::
    bareLines (depthAfter depth e) es

theorem foldl_depthAfter_map (f : Occurrence → Occurrence) (depth : Int) (es : List Event) :
    (es.map (Event.map f)).foldl depthAfter depth = es.foldl depthAfter depth := by
  rw [List.foldl_map]
  rfl

theorem map_outline_of_linesOf {hole : Place} {depth : Int} {es : List Event} {ls : List Line}
    (h : linesOf g flags depth es = .ok ls) :
    ls.map (Line.outline hole) = bareLines depth (outlines hole es) := by
  induction es generalizing depth ls with
  | nil => cases h; rfl
  | cons e es ih =>
    obtain ⟨l, more, hl, hmore, rfl⟩ := linesOf_cons_eq_ok.mp h
    have hevent := Line.event_of hl
    have hdepth := Line.depth_of hl
    rw [List.map_cons, ih hmore]
    subst hevent
    have hfirst : l.outline hole =
        ⟨l.event.signal, l.event.occurrence.outline hole, depthOf depth l.event, none⟩ := by
      rw [← hdepth]
      rfl
    rw [hfirst]
    rfl

/-! ### A node in a context -/

/-- A line about an item of a body, for the same node below a place where more scopes are
open. -/
def Line.moved (hole : Place) (scopes : Int) (l : Line) : Line :=
  (l.map (Occurrence.moved hole)).raised scopes

/-- The same events are reported in a hole as in a body of their own. -/
theorem events_in_hole (hole : Place) (v : Value) :
    (describe g ⟨hole, v⟩).events =
      (describeTree g (program [v])).events.map (Event.map (Occurrence.moved hole)) := by
  have hmoved : (describeTree g (program [v])).map (Occurrence.moved hole) =
      describe g ⟨hole, v⟩ := by
    rw [describeTree_program_singleton, describe_at, Report.map_map, describe_at hole]
    congr 1
    exact funext fun o => Occurrence.moved_under hole ⟨0, 0⟩ o
  rw [← hmoved]
  rfl

theorem exists_segment (hg : NoScopeComputed g)
    (honce : ∀ type r, g.rule? type = some r → r.childTexts.Nodup) {c : Context}
    (hc : c.Walked g) :
    ∃ hole scopes pre post, ∀ (flags : Flags) (v : Value) (ls own : List Line), v.Single →
      ofTree g flags (c.fill v) = .ok ls → ofTree g flags (program [v]) = .ok own →
        ∃ before after, ls = before ++ (own.map (Line.moved hole scopes) ++ after) ∧
          before.map (Line.outline hole) = pre ∧ after.map (Line.outline hole) = post := by
  obtain ⟨hole, pre, post, hframing⟩ := Context.exists_framing hg honce hc
  let scopes := pre.foldl depthAfter 0
  refine ⟨hole, scopes, bareLines 0 pre, bareLines scopes post, fun flags v ls own hv h hown => ?_⟩
  obtain ⟨hf, hls⟩ := ofTree_eq_ok.mp h
  obtain ⟨-, hown⟩ := ofTree_eq_ok.mp hown
  obtain ⟨hfault, as, bs, hevents, hpre, hpost⟩ := hframing v hv hf
  rw [hevents] at hls
  obtain ⟨before, rest, hbefore, hrest, rfl⟩ := linesOf_append_eq_ok.mp hls
  obtain ⟨mid, after, hmid, hafter, rfl⟩ := linesOf_append_eq_ok.mp hrest
  -- The scopes open at the hole are those that the events before it leave open.
  have hscopes : as.foldl depthAfter 0 = 0 + scopes := by
    rw [Int.zero_add, ← foldl_depthAfter_map (Occurrence.outline hole)]
    exact congrArg (List.foldl depthAfter 0) hpre
  have hback := foldl_depthAfter_of_balanced (balanced_describe g ⟨hole, v⟩) hfault
    (as.foldl depthAfter 0)
  rw [hback, hscopes, Int.zero_add] at hafter
  have hmoved : ∀ o : Occurrence, (o.moved hole).node = o.node := fun _ => rfl
  rw [hscopes, linesOf_add, events_in_hole, linesOf_map hmoved, hown] at hmid
  cases hmid
  refine ⟨before, after, ?_, ?_, ?_⟩
  · rw [List.map_map]
    rfl
  · rw [map_outline_of_linesOf hbefore, hpre]
  · rw [map_outline_of_linesOf hafter, hpost]

/-! ### Bodies one after another -/

/-- A line about an item of a body, for the same item so many further on. -/
def Line.later (n : Nat) (l : Line) : Line := l.map (Occurrence.later n)

theorem ofTree_program_append (xs ys : List Value) {ls : List Line} :
    ofTree g flags (program (xs ++ ys)) = .ok ls ↔
      ∃ as bs, ofTree g flags (program xs) = .ok as ∧ ofTree g flags (program ys) = .ok bs ∧
        ls = as ++ bs.map (Line.later xs.length) := by
  have hlater : ∀ o : Occurrence, (o.later xs.length).node = o.node := fun _ => rfl
  simp only [ofTree_eq_ok, describeTree_program_append, Report.fault_append_eq_none]
  constructor
  · rintro ⟨⟨hxs, hys⟩, hls⟩
    have hback := foldl_depthAfter_of_balanced (balanced_describeTree g (program xs)) hxs 0
    rw [Report.append_of_none hxs] at hls
    obtain ⟨as, bs, has, hbs, rfl⟩ := linesOf_append_eq_ok.mp hls
    rw [hback, Report.map, linesOf_map hlater] at hbs
    cases hown : linesOf g flags 0 (describeTree g (program ys)).events with
    | error fault =>
      rw [hown] at hbs
      cases hbs
    | ok own =>
      rw [hown] at hbs
      cases hbs
      exact ⟨as, own, ⟨hxs, has⟩, ⟨hys, rfl⟩, rfl⟩
  · rintro ⟨as, bs, ⟨hxs, has⟩, ⟨hys, hbs⟩, rfl⟩
    have hback := foldl_depthAfter_of_balanced (balanced_describeTree g (program xs)) hxs 0
    refine ⟨⟨hxs, hys⟩, ?_⟩
    rw [Report.append_of_none hxs]
    refine linesOf_append_eq_ok.mpr ⟨as, _, has, ?_, rfl⟩
    rw [hback, Report.map, linesOf_map hlater, hbs]
    rfl

/-- What the nodes of a trace contribute, in order. -/
def contributions (ls : List Line) : List Contribution := ls.filterMap Line.contribution

theorem contributions_append_later (n : Nat) (as bs : List Line) :
    contributions (as ++ bs.map (Line.later n)) = contributions as ++ contributions bs := by
  rw [contributions, List.filterMap_append, List.filterMap_map]
  rfl

/-- A body in another order comes to the same contributions in another order. -/
theorem exists_perm {xs ys : List Value} (h : xs.Perm ys) {ls : List Line}
    (hls : ofTree g flags (program xs) = .ok ls) :
    ∃ ls', ofTree g flags (program ys) = .ok ls' ∧
      (contributions ls).Perm (contributions ls') := by
  induction h generalizing ls with
  | nil => exact ⟨ls, hls, .refl _⟩
  | @cons x xs ys _ ih =>
    obtain ⟨as, bs, has, hbs, rfl⟩ := (ofTree_program_append [x] xs).mp hls
    obtain ⟨bs', hbs', hperm⟩ := ih hbs
    refine ⟨_, (ofTree_program_append [x] ys).mpr ⟨as, bs', has, hbs', rfl⟩, ?_⟩
    rw [contributions_append_later, contributions_append_later]
    exact hperm.append_left _
  | swap x y xs =>
    obtain ⟨bs, rest, hbs, hrest, rfl⟩ := (ofTree_program_append [y] (x :: xs)).mp hls
    obtain ⟨as, cs, has, hcs, rfl⟩ := (ofTree_program_append [x] xs).mp hrest
    have hback := (ofTree_program_append [y] xs).mpr ⟨bs, cs, hbs, hcs, rfl⟩
    refine ⟨_, (ofTree_program_append [x] (y :: xs)).mpr ⟨as, _, has, hback, rfl⟩, ?_⟩
    simp only [contributions_append_later, ← List.append_assoc]
    exact List.perm_append_comm.append_right _
  | trans _ _ ih ih' =>
    obtain ⟨ms, hms, hperm⟩ := ih hls
    obtain ⟨ns, hns, hperm'⟩ := ih' hms
    exact ⟨ns, hns, hperm.trans hperm'⟩

theorem dependencies_perm {xs ys : List Value} {ls ls' : List Line}
    (hls : ofTree g flags (program xs) = .ok ls) (hls' : ofTree g flags (program ys) = .ok ls')
    (h : (contributions ls).Perm (contributions ls')) :
    ∃ rs rs', Dependencies.ofTree g (program xs) = .ok rs ∧
      Dependencies.ofTree g (program ys) = .ok rs' ∧ rs.Perm rs' :=
  ⟨_, _, Dependencies.ofTree_eq_ok hls, Dependencies.ofTree_eq_ok hls', h.filterMap _⟩

/-- If no scope is worked out from a node and no rule names a child twice, then around the
hole of a context the lines of a trace are settled by the context, but for what the nodes
contribute and for the nodes above the hole, which keep their places and types.  In between
come the lines that whatever is put there has in a program of its own, moved there and
deeper by so many scopes.  Every node that is reached stands in such a hole.  Under any
grammar, the lines of two bodies one after another are those of the first and then those of
the second; so the statements of a body in another order contribute the same, and have the
same dependencies, in another order.  Of the root only its body counts. -/
theorem compositional (g : Grammar) :
    (NoScopeComputed g → (∀ type r, g.rule? type = some r → r.childTexts.Nodup) →
      ∀ c : Context, c.Walked g →
        ∃ hole scopes pre post, ∀ (flags : Flags) (v : Value) (ls own : List Line), v.Single →
          ofTree g flags (c.fill v) = .ok ls → ofTree g flags (program [v]) = .ok own →
            ∃ before after, ls = before ++ (own.map (Line.moved hole scopes) ++ after) ∧
              before.map (Line.outline hole) = pre ∧ after.map (Line.outline hole) = post) ∧
    (∀ tree path node, Reached g tree path → node? g tree path = some node →
      node.Single ∧ ∃ c : Context, c.Walked g ∧ c.fill node = tree) ∧
    (∀ flags xs ys ls, ofTree g flags (program (xs ++ ys)) = .ok ls ↔
      ∃ as bs, ofTree g flags (program xs) = .ok as ∧ ofTree g flags (program ys) = .ok bs ∧
        ls = as ++ bs.map (Line.later xs.length)) ∧
    (∀ flags xs ys ls, List.Perm xs ys → ofTree g flags (program xs) = .ok ls →
      ∃ ls', ofTree g flags (program ys) = .ok ls' ∧
        (contributions ls).Perm (contributions ls') ∧
        ∃ rs rs', Dependencies.ofTree g (program xs) = .ok rs ∧
          Dependencies.ofTree g (program ys) = .ok rs' ∧ rs.Perm rs') ∧
    ∀ flags tree tree', tree.prop "body" = tree'.prop "body" →
      ofTree g flags tree = ofTree g flags tree' := by
  refine ⟨fun hg honce c hc => exists_segment hg honce hc, fun tree path node hr hn => ?_,
    fun flags xs ys ls => ofTree_program_append xs ys, fun flags xs ys ls h hls => ?_,
    fun flags tree tree' h => ?_⟩
  · obtain ⟨w, hw, hrule⟩ := hr.2 path List.prefix_rfl hr.1
    cases hn.symm.trans hw
    obtain ⟨r, rule⟩ := Option.isSome_iff_exists.mp hrule
    exact ⟨Value.single_of_isNode (isNode_of_ruleOf rule), exists_context hr hn⟩
  · obtain ⟨ls', hls', hperm⟩ := exists_perm h hls
    exact ⟨ls', hls', hperm, dependencies_perm hls hls' hperm⟩
  · have hroots : roots tree = roots tree' := by
      rw [roots, roots, h]
      rfl
    rw [ofTree_eq, ofTree_eq, describeTree_eq, describeTree_eq, hroots]

/-- Whatever the one statement of the body of a function is. -/
theorem compositional_function_body :
    let root : Frame := ⟨.mapping, [("type", .text "Program")], "body", .item [] [], [], by decide⟩
    let function : Frame :=
      ⟨.mapping, [("type", .text "FunctionDeclaration")], "body", .whole, [], by decide⟩
    let block : Frame :=
      ⟨.mapping, [("type", .text "BlockStatement")], "body", .item [] [], [], by decide⟩
    let c : Context := ⟨root, [function, block], rfl⟩
    c.Walked .standard ∧
      ∃ hole scopes pre post, ∀ (flags : Flags) (v : Value) (ls own : List Line), v.Single →
        ofTree .standard flags (c.fill v) = .ok ls →
          ofTree .standard flags (program [v]) = .ok own →
            ∃ before after, ls = before ++ (own.map (Line.moved hole scopes) ++ after) ∧
              before.map (Line.outline hole) = pre ∧ after.map (Line.outline hole) = post := by
  intro root function block c
  have ftype : (function.fill .null).type? = some ("FunctionDeclaration" : Text) := rfl
  have frule := ruleOf_of_type ftype (Grammar.rule?_standard_of_row .es5 15 rfl)
  have hfunction : function.Walked .standard := ⟨_, frule, List.mem_of_getElem? (i := 1) rfl⟩
  have btype : (block.fill .null).type? = some ("BlockStatement" : Text) := rfl
  have brule := ruleOf_of_type btype (Grammar.rule?_standard_of_row .es5 3 rfl)
  have hblock : block.Walked .standard := ⟨_, brule, List.mem_of_getElem? (i := 0) rfl⟩
  have hc : c.Walked .standard :=
    List.forall_mem_cons.mpr ⟨hfunction, List.forall_mem_singleton.mpr hblock⟩
  exact ⟨hc, (compositional .standard).1 noScopeComputed_standard
    (fun _ _ h => nodup_childTexts_standard h) c hc⟩

end Trace

end Estree
