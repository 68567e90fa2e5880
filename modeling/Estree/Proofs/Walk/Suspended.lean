import Estree.Proofs.Walk.Nesting

/-!
What lies on the two stacks of a walk.

On its way down a walk breaks off lists of siblings and takes them up again later.  The
tasks are what these lists still hold, the innermost list first, each followed by the end
of the scope that its parent has opened; the other stack holds these parents.  So the
stacks, of different content and height, go together: what lies above the end of a scope
stands below the node that opened it, and nothing else does.  Main statement:
`stacks_suspended`.
-/

namespace Estree

namespace Walk

variable {g : Grammar} {tree : Value}

/-! ### Nodes apart from each other -/

/-- A node strictly below another one, by the children that visits find. -/
def Beneath (g : Grammar) : Occurrence → Occurrence → Prop :=
  Relation.TransGen fun parent child => child ∈ below g parent

/-- Neither of two nodes stands at or below the other. -/
def Apart (x y : Occurrence) : Prop := ¬x.path <+: y.path ∧ ¬y.path <+: x.path

theorem Apart.of_below {o x y : Occurrence} (h : Apart o y) (hx : o.path <+: x.path) :
    Apart x y := by
  constructor
  · intro hxy
    exact h.1 (hx.trans hxy)
  · intro hyx
    rcases List.prefix_or_prefix_of_prefix hx hyx with hoy | hyo
    · exact h.1 hoy
    · exact h.2 hyo

theorem apart_of_slots {o : Occurrence} {c d : Slot × Value} (h : c.1 ≠ d.1) :
    Apart (o.child c) (o.child d) := by
  have hne : ∀ s t : Slot, s ≠ t → ¬o.path ++ [s] <+: o.path ++ [t] := by
    intro s t hst hpre
    have heq := hpre.eq_of_length (by simp)
    exact hst (by simpa using heq)
  rw [Apart, Occurrence.path_child, Occurrence.path_child]
  exact ⟨hne c.1 d.1 h, hne d.1 c.1 h.symm⟩

theorem children_apart {o : Occurrence} {names : List Entry} {cs : List (Slot × Value)}
    (found : o.node.children names = .ok cs) : (cs.map o.child).Pairwise Apart := by
  rw [List.pairwise_map]
  refine (Value.childrenFrom_pairwise found).imp ?_
  intro c d hcd
  apply apart_of_slots
  intro heq
  rw [heq] at hcd
  exact Slot.Before.irrefl d.1 hcd

theorem apart_of_children {o : Occurrence} {r : Rule} {os : List Occurrence}
    (found : o.children r = .ok os) : os.Pairwise Apart := by
  obtain ⟨cs, hcs, rfl⟩ := Occurrence.children_eq_ok.mp found
  exact children_apart hcs

theorem path_of_mem_children {o c : Occurrence} {r : Rule} {os : List Occurrence}
    (found : o.children r = .ok os) (hc : c ∈ os) : ∃ s, c.path = o.path ++ [s] := by
  obtain ⟨cs, -, rfl⟩ := Occurrence.children_eq_ok.mp found
  obtain ⟨d, -, rfl⟩ := List.mem_map.mp hc
  exact ⟨d.1, Occurrence.path_child o d⟩

theorem path_prefix_of_mem_below {o c : Occurrence} (h : c ∈ below g o) : o.path <+: c.path := by
  cases rule : ruleOf g o.node with
  | none =>
    rw [below_of_none rule] at h
    cases h
  | some r =>
    cases found : o.children r with
    | error fault =>
      simp only [below, rule, found] at h
      cases h
    | ok os => exact path_prefix_of_mem_children found (below_of_ok rule found ▸ h)

theorem Beneath.path_prefix {o x : Occurrence} (h : Beneath g o x) : o.path <+: x.path := by
  induction h with
  | single hx => exact path_prefix_of_mem_below hx
  | tail _ hx ih => exact ih.trans (path_prefix_of_mem_below hx)

/-! ### Lists of siblings that are broken off -/

/-- Nodes under one parent, in visiting order: those that have been taken up, the last of
which the walk may still be below, and those to come. -/
structure Siblings where
  parent : Occurrence
  /-- The parent has opened a scope, to be closed when its children are done with. -/
  opened : Bool
  taken : List Occurrence
  todo : List Occurrence

namespace Siblings

/-- What is to do about the siblings, and with their parent then. -/
def tasks (l : Siblings) : List Task :=
  l.todo.map Task.visit ++ if l.opened then [.leave] else []

def scope? (l : Siblings) : Option Occurrence := if l.opened then some l.parent else none

variable {p : Occurrence} {b : Bool} {taken todo : List Occurrence} {rest : List Task}

theorem tasks_visit {o : Occurrence} (h : tasks ⟨p, b, taken, todo⟩ = .visit o :: rest) :
    ∃ later, todo = o :: later ∧ rest = tasks ⟨p, b, taken ++ [o], later⟩ := by
  cases todo with
  | nil => cases b <;> cases h
  | cons o' todo =>
    cases h
    exact ⟨todo, rfl, rfl⟩

theorem tasks_leave {above : List Task} (h : tasks ⟨p, b, taken, todo⟩ = above ++ .leave :: rest) :
    b = true ∧ above = todo.map Task.visit ∧ rest = [] := by
  induction todo generalizing above with
  | nil =>
    cases b with
    | false => simp [tasks] at h
    | true =>
      have hone : [Task.leave] = above ++ .leave :: rest := h
      cases above with
      | nil => exact ⟨rfl, rfl, (List.cons.inj hone).2.symm⟩
      | cons t above => simp at hone
  | cons o todo ih =>
    cases above with
    | nil => cases h
    | cons t above =>
      obtain ⟨rfl, hrest⟩ := List.cons.inj h
      obtain ⟨hb, rfl, hnil⟩ := ih hrest
      exact ⟨hb, rfl, hnil⟩

end Siblings

/-- What is reported of nodes that a walk is done with. -/
def reported (g : Grammar) (os : List Occurrence) : List Event :=
  os.flatMap fun o => (describe g o).events

/-- The lists of siblings that a walk has come into and not left, the innermost first, and
the events up to there.  The outermost list is the body of the tree; every other one holds
the children of the node taken last from the list around it. -/
inductive Suspended (g : Grammar) (tree : Value) : List Siblings → List Event → Prop where
  | body {taken todo : List Occurrence} (found : roots tree = taken ++ todo)
      (ended : ∀ o ∈ taken, (describe g o).fault = none) :
      Suspended g tree [⟨frame tree, false, taken, todo⟩] (reported g taken)
  | entered {p o : Occurrence} {b opens : Bool} {r : Rule}
      {taken todo inner next : List Occurrence} {outer : List Siblings} {past : List Event}
      (around : Suspended g tree (⟨p, b, taken, o :: todo⟩ :: outer) past)
      (rule : ruleOf g o.node = some r) (scope : r.opensScope o.node = .ok opens)
      (found : o.children r = .ok (inner ++ next))
      (ended : ∀ c ∈ inner, (describe g c).fault = none) :
      Suspended g tree (⟨o, opens, inner, next⟩ :: ⟨p, b, taken ++ [o], todo⟩ :: outer)
        (past ++ entering opens o ++ reported g inner)

theorem reported_concat (os : List Occurrence) (o : Occurrence) :
    reported g (os ++ [o]) = reported g os ++ (describe g o).events := by
  rw [reported, List.flatMap_append, List.flatMap_singleton]
  rfl

theorem mem_reported {os : List Occurrence} {e : Event} :
    e ∈ reported g os ↔ ∃ o ∈ os, e ∈ (describe g o).events := List.mem_flatMap

section Since

variable {o : Occurrence} {r : Rule} {inner next : List Occurrence} {opens : Bool}
  (found : o.children r = .ok (inner ++ next)) (ended : ∀ c ∈ inner, (describe g c).fault = none)

include found ended

/-- What is reported since a node has been entered is of that node and of what stands below
it. -/
theorem path_prefix_of_mem_since {e : Event} (he : e ∈ entering opens o ++ reported g inner) :
    o.path <+: e.occurrence.path := by
  rcases List.mem_append.mp he with he | he
  · exact occurrence_of_mem_entering he ▸ List.prefix_rfl
  · obtain ⟨d, hd, he⟩ := mem_reported.mp he
    have hod := path_prefix_of_mem_children found (List.mem_append_left next hd)
    exact hod.trans (path_prefix_of_mem d (ended d hd) e he)

/-- None of it is of a child to come. -/
theorem not_prefix_of_mem_since {x : Occurrence} (hx : x ∈ next) {e : Event}
    (he : e ∈ entering opens o ++ reported g inner) : ¬x.path <+: e.occurrence.path := by
  rcases List.mem_append.mp he with he | he
  · obtain ⟨s, hs⟩ := path_of_mem_children found (List.mem_append_right inner hx)
    intro hxe
    rw [occurrence_of_mem_entering he, hs] at hxe
    have hlength := hxe.length_le
    rw [List.length_append, List.length_singleton] at hlength
    omega
  · obtain ⟨d, hd, he⟩ := mem_reported.mp he
    have hapart := (List.pairwise_append.mp (apart_of_children found)).2.2 d hd x hx
    exact (hapart.of_below (path_prefix_of_mem d (ended d hd) e he)).2

end Since

theorem visit_mem_describe {o : Occurrence} (h : (describe g o).fault = none)
    (rule : (ruleOf g o.node).isSome) : ⟨.visit, o⟩ ∈ (describe g o).events := by
  rw [← mem_signalled, ← visited, mem_visited o h]
  exact ⟨[], (List.append_nil _).symm, rfl, passable_nil.mpr rule⟩

namespace Suspended

theorem exists_innermost {lists : List Siblings} {past : List Event}
    (h : Suspended g tree lists past) : ∃ l outer, lists = l :: outer := by
  cases h with
  | body => exact ⟨_, _, rfl⟩
  | entered => exact ⟨_, _, rfl⟩

variable {p o : Occurrence} {b opens : Bool} {taken todo : List Occurrence}
  {lists outer : List Siblings} {past : List Event}

theorem advance (h : Suspended g tree (⟨p, b, taken, o :: todo⟩ :: outer) past)
    (ho : (describe g o).fault = none) :
    Suspended g tree (⟨p, b, taken ++ [o], todo⟩ :: outer) (past ++ (describe g o).events) := by
  have hended : (∀ c ∈ taken, (describe g c).fault = none) →
      ∀ c ∈ taken ++ [o], (describe g c).fault = none := by
    intro htaken c hc
    rcases List.mem_append.mp hc with hc | hc
    · exact htaken c hc
    · rw [List.mem_singleton.mp hc]
      exact ho
  have hsplit : taken ++ o :: todo = (taken ++ [o]) ++ todo := by
    rw [List.append_assoc, List.singleton_append]
  cases h with
  | body found ended =>
    rw [hsplit] at found
    rw [← reported_concat]
    exact .body found (hended ended)
  | entered around rule scope found ended =>
    rw [hsplit] at found
    rw [List.append_assoc, ← reported_concat]
    exact .entered around rule scope found (hended ended)

/-- The walk is done with a node when it is done with the children. -/
theorem finish {l : Siblings}
    (h : Suspended g tree (⟨o, opens, taken, []⟩ :: l :: outer) past) :
    Suspended g tree (l :: outer) (past ++ leaving opens o) := by
  cases h with
  | entered around rule scope found ended =>
    rw [List.append_nil] at found
    have hall : (describeAll g taken).fault = none := describeAll_fault_eq_none.mpr ended
    have hd := describe_descend rule scope found
    rw [Report.append_of_none rfl, Report.append_of_none hall, events_describeAll hall] at hd
    have hnext := around.advance (by rw [hd])
    rw [hd, ← List.append_assoc, ← List.append_assoc] at hnext
    exact hnext

/-! ### Where the siblings stand -/

theorem todo_apart (h : Suspended g tree lists past) :
    (lists.flatMap Siblings.todo).Pairwise Apart := by
  induction h with
  | body found ended =>
    have hall : (roots tree).Pairwise Apart := children_apart (children_frame tree)
    rw [found] at hall
    simpa using (List.pairwise_append.mp hall).2.1
  | entered around rule scope found ended ih =>
    rename_i o _ _ _ _ todo _ next outer _
    have hrest : (o :: (todo ++ outer.flatMap Siblings.todo)).Pairwise Apart := ih
    obtain ⟨ho, hrest⟩ := List.pairwise_cons.mp hrest
    have hchildren := List.pairwise_append.mp (apart_of_children found)
    refine List.pairwise_append.mpr ⟨hchildren.2.1, hrest, ?_⟩
    intro x hx y hy
    exact (ho y hy).of_below (path_prefix_of_mem_children found (List.mem_append_right _ hx))

theorem entered_apart (h : Suspended g tree (⟨p, b, taken, o :: todo⟩ :: outer) past) :
    ∀ x ∈ todo ++ outer.flatMap Siblings.todo, Apart o x := by
  have hall : (o :: (todo ++ outer.flatMap Siblings.todo)).Pairwise Apart := h.todo_apart
  exact (List.pairwise_cons.mp hall).1

theorem beneath_own (h : Suspended g tree lists past) :
    ∀ l ∈ lists, l.opened = true → ∀ x ∈ l.todo, Beneath g l.parent x := by
  induction h with
  | body found ended =>
    intro l hl hopened
    rw [List.mem_singleton.mp hl] at hopened
    cases hopened
  | entered around rule scope found ended ih =>
    obtain ⟨hlist, houter⟩ := List.forall_mem_cons.mp ih
    refine List.forall_mem_cons.mpr ⟨?_, List.forall_mem_cons.mpr ⟨?_, houter⟩⟩
    · intro _ x hx
      apply Relation.TransGen.single
      rw [below_of_ok rule found]
      exact List.mem_append_right _ hx
    · intro hopened x hx
      exact hlist hopened x (List.mem_cons_of_mem _ hx)

/-- Of two lists, what is to come in the first stands below the parent of the second, and
what is to come in the second does not stand below the parent of the first. -/
def Within (g : Grammar) (l m : Siblings) : Prop :=
  (m.opened = true → ∀ x ∈ l.todo, Beneath g m.parent x) ∧ ∀ x ∈ m.todo, ¬Beneath g l.parent x

theorem within_each (h : Suspended g tree lists past) : lists.Pairwise (Within g) := by
  induction h with
  | body found ended => exact List.pairwise_singleton _ _
  | entered around rule scope found ended ih =>
    rename_i p o b opens r taken todo inner next outer past
    have hown := around.beneath_own ⟨p, b, taken, o :: todo⟩ List.mem_cons_self
    have hapart := around.entered_apart
    obtain ⟨hlist, houter⟩ := List.pairwise_cons.mp ih
    -- The children stand below whatever their parent stands below, and the parent was still
    -- to come in the list around it.
    have hnext : ∀ q, Beneath g q o → ∀ x ∈ next, Beneath g q x := by
      intro q hq x hx
      apply hq.tail
      rw [below_of_ok rule found]
      exact List.mem_append_right _ hx
    have hnot : ∀ x ∈ todo ++ outer.flatMap Siblings.todo, ¬Beneath g o x := by
      intro x hx hbelow
      exact (hapart x hx).1 hbelow.path_prefix
    refine List.pairwise_cons.mpr ⟨List.forall_mem_cons.mpr ⟨⟨?_, ?_⟩, ?_⟩,
      List.pairwise_cons.mpr ⟨?_, houter⟩⟩
    · intro hopened
      exact hnext p (hown hopened o List.mem_cons_self)
    · intro x hx
      exact hnot x (List.mem_append_left _ hx)
    · intro m hm
      refine ⟨?_, ?_⟩
      · intro hopened
        exact hnext m.parent ((hlist m hm).1 hopened o List.mem_cons_self)
      · intro x hx
        exact hnot x (List.mem_append_right _ (List.mem_flatMap.mpr ⟨m, hm, hx⟩))
    · intro m hm
      refine ⟨?_, (hlist m hm).2⟩
      intro hopened x hx
      exact (hlist m hm).1 hopened x (List.mem_cons_of_mem o hx)

/-- Nothing has been reported of a node to come, nor of what stands below it. -/
theorem unvisited (h : Suspended g tree lists past) :
    ∀ x ∈ lists.flatMap Siblings.todo, ∀ e ∈ past, ¬x.path <+: e.occurrence.path := by
  induction h with
  | body found ended =>
    rename_i taken todo
    have hall : (roots tree).Pairwise Apart := children_apart (children_frame tree)
    rw [found] at hall
    intro x hx e he
    obtain ⟨d, hd, he⟩ := mem_reported.mp he
    have hapart := (List.pairwise_append.mp hall).2.2 d hd x (by simpa using hx)
    exact (hapart.of_below (path_prefix_of_mem d (ended d hd) e he)).2
  | entered around rule scope found ended ih =>
    rename_i p o b opens r taken todo inner next outer past
    intro x hx e he
    rw [List.append_assoc] at he
    rcases List.mem_append.mp hx with hx | hx
    · have hox : o.path <+: x.path :=
        path_prefix_of_mem_children found (List.mem_append_right _ hx)
      rcases List.mem_append.mp he with he | he
      · intro hxe
        exact ih o List.mem_cons_self e he (hox.trans hxe)
      · exact not_prefix_of_mem_since found ended hx he
    · rcases List.mem_append.mp he with he | he
      · exact ih x (List.mem_cons_of_mem o hx) e he
      · have hoe := path_prefix_of_mem_since found ended he
        exact ((around.entered_apart x hx).of_below hoe).2

/-- The siblings that have been taken are visited, unless they have no rule. -/
theorem visited_taken (h : Suspended g tree lists past) :
    ∀ l ∈ lists, ∀ x ∈ l.taken, (ruleOf g x.node).isSome → ⟨.visit, x⟩ ∈ past := by
  induction h with
  | body found ended =>
    intro l hl x hx rule
    rw [List.mem_singleton.mp hl] at hx
    exact mem_reported.mpr ⟨x, hx, visit_mem_describe (ended x hx) rule⟩
  | entered around rule scope found ended ih =>
    rename_i p o b opens r taken todo inner next outer past
    obtain ⟨hlist, houter⟩ := List.forall_mem_cons.mp ih
    refine List.forall_mem_cons.mpr ⟨?_, List.forall_mem_cons.mpr ⟨?_, ?_⟩⟩
    · intro x hx rule
      apply List.mem_append_right
      exact mem_reported.mpr ⟨x, hx, visit_mem_describe (ended x hx) rule⟩
    · intro x hx rule
      apply List.mem_append_left
      rcases List.mem_append.mp hx with hx | hx
      · exact List.mem_append_left _ (hlist x hx rule)
      · rw [List.mem_singleton.mp hx]
        exact List.mem_append_right _ (visit_mem_entering opens o)
    · intro l hl x hx rule
      exact List.mem_append_left _ (List.mem_append_left _ (houter l hl x hx rule))

/-- What has been reported, with what is to be reported of the innermost siblings, is the
beginning of what is reported of the tree. -/
theorem past_prefix (h : Suspended g tree lists past) :
    ∀ l, lists.head? = some l →
      past ++ (describeAll g l.todo).events <+: (describeTree g tree).events := by
  induction h with
  | body found ended =>
    rename_i taken todo
    intro l hl
    cases hl
    have htaken := describeAll_fault_eq_none.mpr ended
    rw [describeTree_eq, found, describeAll_append, Report.append_of_none htaken,
      events_describeAll htaken]
    exact List.prefix_rfl
  | entered around rule scope found ended ih =>
    rename_i p o b opens r taken todo inner next outer past
    intro l hl
    cases hl
    have hinner := describeAll_fault_eq_none.mpr ended
    -- The node is the next of its siblings, so what is reported of it comes before the rest.
    have hnode : entering opens o ++ reported g inner ++ (describeAll g next).events <+:
        (describe g o).events := by
      rw [describe_descend rule scope found, describeAll_append, Report.append_assoc,
        Report.append_of_none rfl, Report.append_of_none hinner, events_describeAll hinner,
        List.append_assoc]
      refine List.prefix_append_right_inj _ |>.mpr (List.prefix_append_right_inj _ |>.mpr ?_)
      exact Report.events_prefix _ _
    have hlist : (describe g o).events <+: (describeAll g (o :: todo)).events := by
      rw [describeAll_cons]
      exact Report.events_prefix _ _
    refine List.IsPrefix.trans ?_ (ih _ rfl)
    rw [List.append_assoc, List.append_assoc, ← List.append_assoc (entering opens o)]
    exact (List.prefix_append_right_inj past).mpr (hnode.trans hlist)

end Suspended

/-! ### The stacks -/

variable {σ : Type} {c : Consumer σ} {own : σ}

/-- The stacks hold what some lists of siblings have left, and the consumer has been called
with the events up to there. -/
structure State.Holds (g : Grammar) (tree : Value) (c : Consumer σ) (own : σ)
    (lists : List Siblings) (past : List Event) (s : State σ) : Prop where
  suspended : Suspended g tree lists past
  pending : s.pending.toList.reverse = lists.flatMap Siblings.tasks
  scopes : s.scopes.toList.reverse = lists.filterMap Siblings.scope?
  called : feed c own past = (s.own, none)

namespace State.Holds

variable {lists outer : List Siblings} {past : List Event} {s : State σ}

theorem begun (g : Grammar) (tree : Value) (c : Consumer σ) (own : σ) :
    (Walk.start tree own).Holds g tree c own [⟨frame tree, false, [], roots tree⟩] [] := by
  refine ⟨.body rfl (List.forall_mem_nil _), ?_, rfl, rfl⟩
  simp [Walk.start, pile, Siblings.tasks]

/-- Lists that have come to their end without a scope to close can be left out, down to
one that holds a task or to the body of the tree. -/
theorem exists_top {l : Siblings} (h : s.Holds g tree c own (l :: outer) past) :
    ∃ l' outer' past', s.Holds g tree c own (l' :: outer') past' ∧
      (l'.tasks = [] → outer' = []) := by
  -- The induction is on the lists around: each one that is left out is the innermost then.
  induction outer generalizing l past with
  | nil => exact ⟨l, [], past, h, fun _ => rfl⟩
  | cons m outer ih =>
    by_cases htasks : l.tasks = []
    · obtain ⟨p, b, taken, todo⟩ := l
      have hb : b = false := by
        cases b
        · rfl
        · simp [Siblings.tasks] at htasks
      have htodo : todo = [] := by
        cases todo
        · rfl
        · simp [Siblings.tasks] at htasks
      subst hb htodo
      have hcalled : feed c own (past ++ leaving false p) = (s.own, none) := by
        rw [leaving, if_neg Bool.false_ne_true, List.append_nil]
        exact h.called
      exact ih ⟨h.suspended.finish, h.pending, h.scopes, hcalled⟩
    · exact ⟨l, m :: outer, past, h, fun hnone => absurd hnone htasks⟩

/-- The task on top is the first that the innermost of the lists still holds. -/
theorem exists_task {pending : Array Task} {scopes : Array Occurrence} {now : σ} {task : Task}
    (h : State.Holds g tree c own lists past ⟨pending.push task, scopes, now⟩) :
    ∃ l outer past rest, Suspended g tree (l :: outer) past ∧ l.tasks = task :: rest ∧
      pending.toList.reverse = rest ++ outer.flatMap Siblings.tasks ∧
      scopes.toList.reverse = (l :: outer).filterMap Siblings.scope? ∧
      feed c own past = (now, none) := by
  obtain ⟨_, _, rfl⟩ := h.suspended.exists_innermost
  obtain ⟨l, outer, past, hlists, htop⟩ := h.exists_top
  have hpending := hlists.pending
  simp only [Array.toList_push, List.reverse_append, List.reverse_singleton,
    List.singleton_append, List.flatMap_cons] at hpending
  cases htasks : l.tasks with
  | nil =>
    rw [htasks, htop htasks] at hpending
    cases hpending
  | cons first rest =>
    rw [htasks, List.cons_append] at hpending
    obtain ⟨rfl, hrest⟩ := List.cons.inj hpending
    exact ⟨l, outer, past, rest, hlists.suspended, htasks, hrest, hlists.scopes, hlists.called⟩

end State.Holds

/-- A turn takes the next of the siblings, enters it, or closes the scope around them. -/
theorem State.Holds.turn {lists : List Siblings} {past : List Event} {s t : State σ}
    (h : s.Holds g tree c own lists past) (hturn : s.turn g c = .moved t) :
    ∃ lists past, t.Holds g tree c own lists past := by
  cases turn_eq_moved hturn with
  | skip rule =>
    obtain ⟨⟨p, b, taken, todo⟩, outer, past, rest, hlists, htasks, hpending, hscopes, hcalled⟩ :=
      h.exists_task
    obtain ⟨todo, rfl, rfl⟩ := Siblings.tasks_visit htasks
    have hd := describe_skip rule
    have hnext := hlists.advance (by rw [hd]; rfl)
    rw [hd, Report.empty, List.append_nil] at hnext
    exact ⟨_, past, hnext, hpending, hscopes, hcalled⟩
  | descend rule scope found called =>
    rename_i pending scopes now next o r opens os
    obtain ⟨⟨p, b, taken, todo⟩, outer, past, rest, hlists, htasks, hpending, hscopes, hcalled⟩ :=
      h.exists_task
    obtain ⟨todo, rfl, rfl⟩ := Siblings.tasks_visit htasks
    refine ⟨⟨o, opens, [], os⟩ :: ⟨p, b, taken ++ [o], todo⟩ :: outer,
      past ++ entering opens o ++ [],
      .entered hlists rule scope found (List.forall_mem_nil _), ?_, ?_, ?_⟩
    · rw [List.flatMap_cons, List.flatMap_cons, ← hpending]
      cases opens <;> simp [pile, Siblings.tasks]
    · have hsame : scopes.toList.reverse =
          ((⟨p, b, taken ++ [o], todo⟩ : Siblings) :: outer).filterMap Siblings.scope? := hscopes
      rw [List.filterMap_cons, ← hsame]
      cases opens <;> simp [Siblings.scope?]
    · rw [List.append_nil, feed_append, hcalled]
      exact called
  | close called =>
    rename_i pending scopes now next o
    obtain ⟨⟨p, b, taken, todo⟩, outer, past, rest, hlists, htasks, hpending, hscopes, hcalled⟩ :=
      h.exists_task
    have hleave : Siblings.tasks ⟨p, b, taken, todo⟩ = [] ++ .leave :: rest := htasks
    obtain ⟨rfl, htodo, rfl⟩ := Siblings.tasks_leave hleave
    obtain rfl := List.map_eq_nil_iff.mp htodo.symm
    cases outer with
    | nil => cases hlists
    | cons l outer =>
      simp only [Array.toList_push, List.reverse_append, List.reverse_singleton,
        List.singleton_append] at hscopes
      have hparts : o :: scopes.toList.reverse =
          p :: (l :: outer).filterMap Siblings.scope? := hscopes
      obtain ⟨hparent, hrest⟩ := List.cons.inj hparts
      subst hparent
      refine ⟨_, _, hlists.finish, hpending, hrest, ?_⟩
      rw [feed_append, hcalled]
      simp only [Outcome.andThen_none, leaving, if_true, feed, called]

theorem State.Holds.leads {s : State σ} (h : State.Leads g c (Walk.start tree own) s) :
    ∃ lists past, s.Holds g tree c own lists past := by
  induction h with
  | refl => exact ⟨_, _, .begun g tree c own⟩
  | tail _ hturn ih =>
    obtain ⟨_, _, hbefore⟩ := ih
    exact hbefore.turn hturn

/-! ### Ends of scopes among the tasks -/

theorem visit_mem_tasks {lists : List Siblings} {x : Occurrence} :
    .visit x ∈ lists.flatMap Siblings.tasks ↔ x ∈ lists.flatMap Siblings.todo := by
  have hone : ∀ l : Siblings, .visit x ∈ l.tasks ↔ x ∈ l.todo := by
    intro l
    obtain ⟨p, b, taken, todo⟩ := l
    cases b <;> simp [Siblings.tasks]
  simp only [List.mem_flatMap, hone]

theorem countP_tasks (lists : List Siblings) :
    (lists.flatMap Siblings.tasks).countP Task.isLeave =
      (lists.filterMap Siblings.scope?).length := by
  have hvisits : ∀ os : List Occurrence, (os.map Task.visit).countP Task.isLeave = 0 := by
    intro os
    rw [List.countP_eq_zero]
    intro task htask
    obtain ⟨o, -, rfl⟩ := List.mem_map.mp htask
    exact Bool.false_ne_true
  induction lists with
  | nil => rfl
  | cons l lists ih =>
    obtain ⟨p, b, taken, todo⟩ := l
    rw [List.flatMap_cons, List.countP_append, ih, Siblings.tasks, List.countP_append, hvisits]
    cases b
    · show 0 + 0 + _ = (lists.filterMap Siblings.scope?).length
      omega
    · show 0 + 1 + _ = (p :: lists.filterMap Siblings.scope?).length
      rw [List.length_cons]
      omega

/-- An end of a scope among the tasks belongs to one of the lists. -/
theorem exists_list {lists : List Siblings} {above under : List Task}
    (h : lists.flatMap Siblings.tasks = above ++ .leave :: under) :
    ∃ within l outer, lists = within ++ l :: outer ∧ l.opened = true ∧
      above = within.flatMap Siblings.tasks ++ l.todo.map Task.visit ∧
      under = outer.flatMap Siblings.tasks := by
  induction lists generalizing above with
  | nil => simp at h
  | cons l lists ih =>
    rw [List.flatMap_cons] at h
    rcases List.append_eq_append_iff.mp h with ⟨above', rfl, hrest⟩ | ⟨under', htasks, hrest⟩
    · obtain ⟨within, m, outer, rfl, hopened, rfl, rfl⟩ := ih hrest
      refine ⟨l :: within, m, outer, rfl, hopened, ?_, rfl⟩
      rw [List.flatMap_cons, List.append_assoc]
    · cases under' with
      | nil =>
        have hlists : lists.flatMap Siblings.tasks = [] ++ .leave :: under := hrest.symm
        obtain ⟨within, m, outer, rfl, hopened, hover, rfl⟩ := ih hlists
        refine ⟨l :: within, m, outer, rfl, hopened, ?_, rfl⟩
        rw [List.flatMap_cons, List.append_assoc, ← hover, htasks, List.append_nil, List.append_nil]
      | cons task under' =>
        obtain ⟨rfl, rfl⟩ := List.cons.inj hrest
        obtain ⟨hopened, rfl, rfl⟩ := Siblings.tasks_leave htasks
        exact ⟨[], l, lists, rfl, hopened, rfl, rfl⟩

/-- The end of a scope that has so many ends under it belongs to the open scope that has so
many under it.  The visits above it are those of nodes below the node of that scope. -/
theorem State.Holds.scope_of_leave {lists : List Siblings} {past : List Event} {s : State σ}
    (h : s.Holds g tree c own lists past) {under above : List Task}
    (hsplit : s.pending.toList = under ++ .leave :: above) :
    ∃ o, s.scopes[under.countP Task.isLeave]? = some o ∧
      (∀ x, .visit x ∈ above → Beneath g o x) ∧ ∀ x, .visit x ∈ under → ¬Beneath g o x := by
  have hpending : lists.flatMap Siblings.tasks = above.reverse ++ .leave :: under.reverse := by
    rw [← h.pending, hsplit]
    simp
  obtain ⟨within, l, outer, rfl, hopened, hover, hunder⟩ := exists_list hpending
  obtain ⟨-, hlist, hwithin⟩ := List.pairwise_append.mp h.suspended.within_each
  refine ⟨l.parent, ?_, ?_, ?_⟩
  · have hscopes : s.scopes.toList =
        (outer.filterMap Siblings.scope?).reverse ++
          l.parent :: (within.filterMap Siblings.scope?).reverse := by
      have hscope : l.scope? = some l.parent := if_pos hopened
      rw [← List.reverse_inj, h.scopes, List.filterMap_append, List.filterMap_cons_some hscope]
      simp
    have hcount : under.countP Task.isLeave = (outer.filterMap Siblings.scope?).reverse.length := by
      rw [List.length_reverse, ← countP_tasks, ← hunder, List.countP_reverse]
    rw [← Array.getElem?_toList, hscopes, hcount, List.getElem?_append_right (Nat.le_refl _),
      Nat.sub_self]
    rfl
  · intro x hx
    rw [← List.mem_reverse, hover, List.mem_append, visit_mem_tasks] at hx
    rcases hx with hx | hx
    · obtain ⟨m, hm, hx⟩ := List.mem_flatMap.mp hx
      exact (hwithin m hm l List.mem_cons_self).1 hopened x hx
    · have htodo : x ∈ l.todo := by simpa using hx
      exact h.suspended.beneath_own l (by simp) hopened x htodo
  · intro x hx
    rw [← List.mem_reverse, hunder, visit_mem_tasks] at hx
    obtain ⟨m, hm, hx⟩ := List.mem_flatMap.mp hx
    exact ((List.pairwise_cons.mp hlist).1 m hm).2 x hx

/-- At each turn of a walk, whatever the consumer does, as many ends of scopes are pending as
scopes are open, and they go together from the bottom up: the visits that are pending above
the end of a scope are of nodes strictly below the one that opened it, and those under it
are not.  Read from the top, what is pending are the nodes to come in the lists of siblings
that the walk has broken off, the innermost list first and each in visiting order, and after
each list the end of the scope of its parent; the open scopes are those parents.  The calls
so far are the beginning of what is reported of the tree.  They visit the siblings that have
been taken, unless they have no rule, and nothing at or below those to come. -/
theorem stacks_suspended {σ : Type} (g : Grammar) (tree : Value) (c : Consumer σ) (own : σ)
    {s : State σ} (h : State.Leads g c (start tree own) s) :
    s.pending.countP Task.isLeave = s.scopes.size ∧
      (∀ under above, s.pending.toList = under ++ .leave :: above →
        ∃ o, s.scopes[under.countP Task.isLeave]? = some o ∧
          (∀ x, .visit x ∈ above → Beneath g o x) ∧ ∀ x, .visit x ∈ under → ¬Beneath g o x) ∧
      ∃ lists past, Suspended g tree lists past ∧
        s.pending.toList.reverse = lists.flatMap Siblings.tasks ∧
        s.scopes.toList.reverse = lists.filterMap Siblings.scope? ∧
        feed c own past = (s.own, none) ∧ past <+: (describeTree g tree).events ∧
        ∀ l ∈ lists, (∀ x ∈ l.taken, (ruleOf g x.node).isSome → ⟨.visit, x⟩ ∈ past) ∧
          ∀ x ∈ l.todo, ∀ e ∈ past, ¬x.path <+: e.occurrence.path := by
  obtain ⟨lists, past, hholds⟩ := State.Holds.leads h
  refine ⟨State.lockstep_of_leads (State.lockstep_start tree own) h,
    fun under above => hholds.scope_of_leave, lists, past, hholds.suspended, hholds.pending,
    hholds.scopes, hholds.called, ?_, ?_⟩
  · obtain ⟨l, _, rfl⟩ := hholds.suspended.exists_innermost
    exact (List.prefix_append _ _).trans (hholds.suspended.past_prefix l rfl)
  · intro l hl
    refine ⟨hholds.suspended.visited_taken l hl, ?_⟩
    intro x hx
    exact hholds.suspended.unvisited x (List.mem_flatMap.mpr ⟨l, hl, hx⟩)

/-- Its one type opens a scope around its children. -/
def scoping : Grammar where
  rules := Keyed.write .empty (.text "Scope") (.text "Scope")
    { Rule.default with children := [.data (.text "inside")], newScope := .data (.bool true) }

def scopeOf (inside : List Value) : Value :=
  .mapping [("type", .text "Scope"), ("inside", .list inside)]

/-- A walk that has come two scopes down holds a sibling at each level, and the ends of the
scopes between them. -/
theorem stacks_suspended_nested :
    let leaf := scopeOf []
    let inner := scopeOf [leaf]
    let outer := scopeOf [inner, leaf]
    let tree : Value := .mapping [("type", .text "Program"), ("body", .list [outer, leaf])]
    let c := Consumer.ofTotal fun n _ => n + 1
    let s : State Nat :=
      ⟨#[.visit ⟨[⟨0, 1⟩], leaf⟩, .leave, .visit ⟨[⟨0, 1⟩, ⟨0, 0⟩], leaf⟩, .leave,
          .visit ⟨[⟨0, 0⟩, ⟨0, 0⟩, ⟨0, 0⟩], leaf⟩],
        #[⟨[⟨0, 0⟩], outer⟩, ⟨[⟨0, 0⟩, ⟨0, 0⟩], inner⟩], 4⟩
    State.Leads scoping c (start tree 0) s ∧
      s.pending.countP Task.isLeave = s.scopes.size ∧
      ∃ lists past, Suspended scoping tree lists past ∧
        s.pending.toList.reverse = lists.flatMap Siblings.tasks ∧
        s.scopes.toList.reverse = lists.filterMap Siblings.scope? ∧
        feed c 0 past = (4, none) := by
  intro leaf inner outer tree c s
  let first : State Nat :=
    ⟨#[.visit ⟨[⟨0, 1⟩], leaf⟩, .leave, .visit ⟨[⟨0, 1⟩, ⟨0, 0⟩], leaf⟩,
      .visit ⟨[⟨0, 0⟩, ⟨0, 0⟩], inner⟩], #[⟨[⟨0, 0⟩], outer⟩], 2⟩
  have hfirst : (start tree 0).turn scoping c = .moved first := rfl
  have hsecond : first.turn scoping c = .moved s := rfl
  have hone : State.Leads scoping c (start tree 0) first := Relation.ReflTransGen.refl.tail hfirst
  have hleads : State.Leads scoping c (start tree 0) s := hone.tail hsecond
  obtain ⟨hcount, -, lists, past, hlists, hpending, hscopes, hcalled, -⟩ :=
    stacks_suspended scoping tree c 0 hleads
  exact ⟨hleads, hcount, lists, past, hlists, hpending, hscopes, hcalled⟩

end Walk

end Estree
