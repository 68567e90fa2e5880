import Estree.Proofs.Grammar.Standard
import Estree.Proofs.Walk.Calls
import Estree.Proofs.Walk.Slots

/-!
Which nodes a walk visits, and in which order.

A path leads from the root of a tree down to a node, by the names that the rules
declare.  If every rule on the way can be evaluated, the walk visits the nodes that
are reached by nodes with rules, each once and in the order of their paths:
`visited_in_order`.
-/

namespace Estree

namespace Walk

/-- The order of paths: that of the first slots that differ, and a path comes before
those that go on from it. -/
abbrev Before : List Slot → List Slot → Prop := List.Lex Slot.Before

theorem Before.irrefl (p : List Slot) : ¬Before p p := List.lex_irrefl Slot.Before.irrefl p

theorem Before.trans {p q r : List Slot} (h : Before p q) (h' : Before q r) : Before p r :=
  List.lex_trans Slot.Before.trans h h'

theorem before_append {p q : List Slot} (h : q ≠ []) : Before p (p ++ q) := by
  obtain ⟨s, q, rfl⟩ := List.exists_cons_of_ne_nil h
  simpa using List.Lex.append_left Slot.Before (.nil (a := s) (l := q)) p

theorem before_of_slots {s t : Slot} (h : s.Before t) (p q r : List Slot) :
    Before (p ++ s :: q) (p ++ t :: r) :=
  List.Lex.append_left Slot.Before (.rel h) p

theorem nodup_of_sorted {paths : List (List Slot)} (h : paths.Pairwise Before) : paths.Nodup := by
  refine h.imp fun {p q} hpq heq => ?_
  rw [heq] at hpq
  exact Before.irrefl q hpq

/-- In order, a path comes before those that go on from it. -/
theorem index_lt_of_prefix {paths : List (List Slot)} (h : paths.Pairwise Before) {i j : Nat}
    {p q : List Slot} (hi : paths[i]? = some p) (hj : paths[j]? = some q) (hpq : p <+: q)
    (hne : p ≠ q) : i < j := by
  obtain ⟨hi', rfl⟩ := List.getElem?_eq_some_iff.mp hi
  obtain ⟨hj', rfl⟩ := List.getElem?_eq_some_iff.mp hj
  rcases Nat.lt_trichotomy i j with hij | rfl | hji
  · exact hij
  · exact absurd rfl hne
  · have hback := List.pairwise_iff_getElem.mp h j i hj' hi' hji
    obtain ⟨rest, hrest⟩ := hpq
    have hforth := before_append (p := paths[i]) (q := rest)
      fun he => hne (by rw [← hrest, he, List.append_nil])
    rw [hrest] at hforth
    exact absurd (hforth.trans hback) (Before.irrefl _)

namespace Occurrence

def path (o : Occurrence) : List Slot := o.place.reverse

@[simp] theorem path_child (o : Occurrence) (c : Slot × Value) :
    (o.child c).path = o.path ++ [c.1] := by
  simp [path, child]

theorem ext_path {o p : Occurrence} (hp : o.path = p.path) (hn : o.node = p.node) : o = p := by
  obtain ⟨place, node⟩ := o
  obtain ⟨place', node'⟩ := p
  simp only [path, List.reverse_inj] at hp
  cases hp
  cases hn
  rfl

end Occurrence

/-! ### Paths that lead to a node -/

/-- The node at the end of a path from another one.  Each step goes by the names that
are declared for the type of the node it starts from. -/
def below? (g : Grammar) (node : Value) : List Slot → Option Value
  | [] => some node
  | s :: path => (node.childAt? (g.lookup node.type?).children s).bind fun child =>
    below? g child path

/-- The node at the end of a path from the root. -/
def node? (g : Grammar) (tree : Value) : List Slot → Option Value
  | [] => none
  | s :: path => (tree.childAt? [.data (.text "body")] s).bind fun child => below? g child path

/-- Every node on a path from a node has a rule, the last one and the first one too. -/
def Passable (g : Grammar) (node : Value) (path : List Slot) : Prop :=
  ∀ q, q <+: path → ∃ w, below? g node q = some w ∧ (ruleOf g w).isSome

/-- A path below the root that leads to a node with a rule through nodes with rules. -/
def Reached (g : Grammar) (tree : Value) (path : List Slot) : Prop :=
  path ≠ [] ∧ ∀ q, q <+: path → q ≠ [] → ∃ w, node? g tree q = some w ∧ (ruleOf g w).isSome

/-- The parts of a rule that a walk evaluates do not fail on a node. -/
def Evaluates (g : Grammar) (node : Value) : Prop :=
  ∀ r, ruleOf g node = some r →
    (∃ opens, r.opensScope node = .ok opens) ∧ ∃ cs, r.childrenOf node = .ok cs

theorem evaluates_of_isStatic {g : Grammar} {node : Value}
    (h : ∀ r, ruleOf g node = some r → r.isStatic = true) : Evaluates g node := fun r rule =>
  ⟨⟨_, Rule.opensScope_ok (h r rule) node⟩, Rule.childrenOf_ok (h r rule) node⟩

theorem evaluates_standard (node : Value) : Evaluates .standard node := by
  refine evaluates_of_isStatic fun r rule => ?_
  obtain ⟨type, -, htype⟩ := Option.bind_eq_some_iff.mp rule
  exact Grammar.isStatic_of_standard htype

theorem ruleOf_of_type {g : Grammar} {node : Value} {type : Text} {r : Rule}
    (ht : node.type? = some type) (h : g.rule? type = some r) : ruleOf g node = some r := by
  rw [ruleOf, ht, Option.bind_some, h]

theorem ruleOf_standard {node : Value} {type : Text} {fields : List (Text × Entry)}
    (ht : node.type? = some type)
    (h : (Grammar.Edition.all.flatMap Grammar.Edition.table).reverse.lookup type = some fields) :
    ruleOf .standard node = some (.ofFields fields) := by
  rw [ruleOf, ht, Option.bind_some, Grammar.rule?_standard, h, Option.map_some]

theorem lookup_of_ruleOf {g : Grammar} {node : Value} {r : Rule} (rule : ruleOf g node = some r) :
    g.lookup node.type? = r := by
  unfold ruleOf at rule
  rw [Grammar.lookup, rule, Option.getD_some]

theorem lookup_of_ruleOf_eq_none {g : Grammar} {node : Value} (rule : ruleOf g node = none) :
    g.lookup node.type? = .default := by
  unfold ruleOf at rule
  rw [Grammar.lookup, rule, Option.getD_none]

theorem passable_nil {g : Grammar} {node : Value} :
    Passable g node [] ↔ (ruleOf g node).isSome := by
  simp [Passable, List.prefix_nil, below?]

theorem passable_cons {g : Grammar} {node : Value} {r : Rule} {s : Slot} {path : List Slot}
    (rule : ruleOf g node = some r) :
    Passable g node (s :: path) ↔
      ∃ child, node.childAt? r.children s = some child ∧ Passable g child path := by
  constructor
  · intro h
    obtain ⟨w, hw, -⟩ := h [s] (List.cons_prefix_cons.mpr ⟨rfl, List.nil_prefix⟩)
    simp only [below?, lookup_of_ruleOf rule, Option.bind_eq_some_iff] at hw
    obtain ⟨child, hc, -⟩ := hw
    refine ⟨child, hc, fun q hq => ?_⟩
    obtain ⟨w, hw, hr⟩ := h (s :: q) (List.cons_prefix_cons.mpr ⟨rfl, hq⟩)
    simp only [below?, lookup_of_ruleOf rule, hc, Option.bind_some] at hw
    exact ⟨w, hw, hr⟩
  · rintro ⟨child, hc, h⟩ q hq
    rcases List.prefix_cons_iff.mp hq with rfl | ⟨q', rfl, hq'⟩
    · exact ⟨node, rfl, by rw [rule]; rfl⟩
    · obtain ⟨w, hw, hr⟩ := h q' hq'
      exact ⟨w, by simp only [below?, lookup_of_ruleOf rule, hc, Option.bind_some, hw], hr⟩

/-! ### What is visited -/

def visited (g : Grammar) (o : Occurrence) : List Occurrence :=
  signalled .visit (describe g o).events

theorem signalled_entering (opens : Bool) (o : Occurrence) :
    signalled .visit (entering opens o) = [o] := by
  cases opens <;> rfl

theorem signalled_leaving (opens : Bool) (o : Occurrence) :
    signalled .visit (leaving opens o) = [] := by
  cases opens <;> rfl

theorem signalled_flatMap (signal : Signal) (f : Occurrence → List Event)
    (os : List Occurrence) :
    signalled signal (os.flatMap f) = os.flatMap fun o => signalled signal (f o) := by
  induction os with
  | nil => rfl
  | cons o os ih => rw [List.flatMap_cons, signalled_append, ih, List.flatMap_cons]

theorem visited_of_events {g : Grammar} {o : Occurrence} {opens : Bool} {os : List Occurrence}
    (h : (describe g o).events =
      entering opens o ++ (os.flatMap fun c => (describe g c).events) ++ leaving opens o) :
    visited g o = o :: os.flatMap (visited g) := by
  rw [visited, h, signalled_append, signalled_append, signalled_entering, signalled_leaving,
    signalled_flatMap, List.append_nil]
  rfl

section Children

variable {g : Grammar} {o : Occurrence} {names : List Entry} {cs : List (Slot × Value)}

theorem mem_children {c : Slot × Value} (h : o.node.children names = .ok cs) :
    c ∈ cs ↔ o.node.childAt? names c.1 = some c.2 := by
  simpa using Value.mem_childrenFrom (n := 0) h

/-- What is listed of the children of a node, each by itself, is listed below one of
them. -/
theorem mem_flatMap_children {f : Occurrence → List Occurrence}
    {Q : Value → List Slot → Value → Prop} {x : Occurrence} (h : o.node.children names = .ok cs)
    (ih : ∀ c ∈ cs.map o.child, ∀ x, x ∈ f c ↔
      ∃ path, x.path = c.path ++ path ∧ Q c.node path x.node) :
    x ∈ (cs.map o.child).flatMap f ↔
      ∃ s path child, x.path = o.path ++ s :: path ∧ o.node.childAt? names s = some child ∧
        Q child path x.node := by
  simp only [List.mem_flatMap]
  constructor
  · rintro ⟨c, hc, hx⟩
    obtain ⟨path, hp, hq⟩ := (ih c hc x).mp hx
    obtain ⟨d, hd, rfl⟩ := List.mem_map.mp hc
    refine ⟨d.1, path, d.2, ?_, (mem_children h).mp hd, hq⟩
    rw [hp, Occurrence.path_child, List.append_assoc]
    rfl
  · rintro ⟨s, path, child, hp, hs, hq⟩
    have hc := List.mem_map_of_mem (f := o.child) ((mem_children (c := (s, child)) h).mpr hs)
    refine ⟨_, hc, (ih _ hc x).mpr ⟨path, ?_, hq⟩⟩
    rw [hp, Occurrence.path_child, List.append_assoc]
    rfl

/-- What is visited below a node is visited below one of its children. -/
theorem mem_visited_children {x : Occurrence} (h : o.node.children names = .ok cs)
    (ih : ∀ c ∈ cs.map o.child, ∀ x, x ∈ visited g c ↔
      ∃ path, x.path = c.path ++ path ∧ below? g c.node path = some x.node ∧
        Passable g c.node path) :
    x ∈ (cs.map o.child).flatMap (visited g) ↔
      ∃ s path child, x.path = o.path ++ s :: path ∧ o.node.childAt? names s = some child ∧
        below? g child path = some x.node ∧ Passable g child path :=
  mem_flatMap_children (Q := fun v path w => below? g v path = some w ∧ Passable g v path) h ih

/-- What is listed below a child comes before what is listed below a later one. -/
theorem flatMap_children_pairwise {f : Occurrence → List Occurrence}
    (h : o.node.children names = .ok cs)
    (hp : ∀ c ∈ cs.map o.child, ∀ x ∈ f c, c.path <+: x.path)
    (ih : ∀ c ∈ cs.map o.child, (f c).Pairwise fun x y => Before x.path y.path) :
    ((cs.map o.child).flatMap f).Pairwise fun x y => Before x.path y.path := by
  refine List.pairwise_flatMap.mpr ⟨ih, List.pairwise_map.mpr ?_⟩
  refine (Value.childrenFrom_pairwise h).imp_of_mem fun {c d} hc hd hcd x hx y hy => ?_
  obtain ⟨p, hp'⟩ := hp _ (List.mem_map_of_mem hc) x hx
  obtain ⟨q, hq⟩ := hp _ (List.mem_map_of_mem hd) y hy
  rw [← hp', ← hq, Occurrence.path_child, Occurrence.path_child, List.append_assoc,
    List.append_assoc]
  exact before_of_slots hcd o.path p q

/-- A node comes before everything that is listed below it. -/
theorem cons_flatMap_children_pairwise {f : Occurrence → List Occurrence}
    (h : o.node.children names = .ok cs)
    (hp : ∀ c ∈ cs.map o.child, ∀ x ∈ f c, c.path <+: x.path)
    (ih : ∀ c ∈ cs.map o.child, (f c).Pairwise fun x y => Before x.path y.path) :
    (o :: (cs.map o.child).flatMap f).Pairwise fun x y => Before x.path y.path := by
  refine List.pairwise_cons.mpr ⟨fun x hx => ?_, flatMap_children_pairwise h hp ih⟩
  obtain ⟨c, hc, hx⟩ := List.mem_flatMap.mp hx
  obtain ⟨path, hx⟩ := hp c hc x hx
  obtain ⟨d, -, rfl⟩ := List.mem_map.mp hc
  rw [← hx, Occurrence.path_child, List.append_assoc]
  exact before_append (by simp)

end Children

theorem mem_visited {g : Grammar} (o : Occurrence) (h : (describe g o).fault = none) :
    ∀ x, x ∈ visited g o ↔
      ∃ path, x.path = o.path ++ path ∧ below? g o.node path = some x.node ∧
        Passable g o.node path := by
  induction o, h using complete_induction g with
  | skip o h rule hd =>
    intro x
    rw [visited, hd]
    constructor
    · intro hx
      cases hx
    · rintro ⟨path, -, -, hr⟩
      obtain ⟨w, hw, hr⟩ := hr [] List.nil_prefix
      cases hw
      rw [rule] at hr
      cases hr
  | descend o h r opens os rule scope found hd hos ih =>
    intro x
    obtain ⟨cs, hcs, rfl⟩ := Occurrence.children_eq_ok.mp found
    rw [visited_of_events hd, List.mem_cons, mem_visited_children hcs ih]
    constructor
    · rintro (rfl | ⟨s, path, child, hp, hs, hb, hr⟩)
      · exact ⟨[], by simp, rfl, passable_nil.mpr (by rw [rule]; rfl)⟩
      · refine ⟨s :: path, hp, ?_, (passable_cons rule).mpr ⟨child, hs, hr⟩⟩
        simp only [below?, lookup_of_ruleOf rule, hs, Option.bind_some, hb]
    · rintro ⟨path, hp, hb, hr⟩
      cases path with
      | nil =>
        have hn : o.node = x.node := Option.some.inj hb
        exact .inl (Occurrence.ext_path (by simpa using hp) hn.symm)
      | cons s path =>
        obtain ⟨child, hs, hr⟩ := (passable_cons rule).mp hr
        simp only [below?, lookup_of_ruleOf rule, hs, Option.bind_some] at hb
        exact .inr ⟨s, path, child, hp, hs, hb, hr⟩

theorem path_prefix_of_mem_visited {g : Grammar} {o x : Occurrence}
    (h : (describe g o).fault = none) (hx : x ∈ visited g o) : o.path <+: x.path := by
  obtain ⟨path, hp, -⟩ := (mem_visited o h x).mp hx
  exact ⟨path, hp.symm⟩

theorem visited_pairwise {g : Grammar} (o : Occurrence) (h : (describe g o).fault = none) :
    (visited g o).Pairwise fun x y => Before x.path y.path := by
  induction o, h using complete_induction g with
  | skip o h rule hd => rw [visited, hd]; exact List.Pairwise.nil
  | descend o h r opens os rule scope found hd hos ih =>
    obtain ⟨cs, hcs, rfl⟩ := Occurrence.children_eq_ok.mp found
    have hp : ∀ c ∈ cs.map o.child, ∀ x ∈ visited g c, c.path <+: x.path := fun c hc x hx =>
      path_prefix_of_mem_visited (hos c hc) hx
    rw [visited_of_events hd]
    exact cons_flatMap_children_pairwise hcs hp ih

/-! ### The whole tree -/

/-- The frame of a tree: its root, under which only the body is looked at. -/
def frame (tree : Value) : Occurrence := ⟨[], tree⟩

theorem children_frame (tree : Value) :
    (frame tree).node.children [.data (.text "body")] = .ok ((tree.prop "body").nodesAt 0) := by
  refine Value.childrenFrom_cons_eq_ok.mpr ⟨tree.prop "body", [], rfl, rfl, ?_⟩
  rw [List.append_nil]

theorem node?_eq_some {g : Grammar} {tree node : Value} {path : List Slot} :
    node? g tree path = some node ↔
      ∃ s rest child, path = s :: rest ∧ tree.childAt? [.data (.text "body")] s = some child ∧
        below? g child rest = some node := by
  cases path with
  | nil => simp [node?]
  | cons s rest =>
    simp only [node?, Option.bind_eq_some_iff]
    constructor
    · rintro ⟨child, hs, hb⟩
      exact ⟨s, rest, child, rfl, hs, hb⟩
    · rintro ⟨s', rest', child, hp, hs, hb⟩
      cases hp
      exact ⟨child, hs, hb⟩

theorem reached_cons {g : Grammar} {tree child : Value} {s : Slot} {path : List Slot}
    (hs : tree.childAt? [.data (.text "body")] s = some child) :
    Reached g tree (s :: path) ↔ Passable g child path := by
  constructor
  · intro h q hq
    obtain ⟨w, hw, hr⟩ := h.2 (s :: q) (List.cons_prefix_cons.mpr ⟨rfl, hq⟩) (List.cons_ne_nil _ _)
    simp only [node?, hs, Option.bind_some] at hw
    exact ⟨w, hw, hr⟩
  · intro h
    refine ⟨List.cons_ne_nil _ _, fun q hq hne => ?_⟩
    rcases List.prefix_cons_iff.mp hq with rfl | ⟨q', rfl, hq'⟩
    · exact absurd rfl hne
    · obtain ⟨w, hw, hr⟩ := h q' hq'
      exact ⟨w, by simp only [node?, hs, Option.bind_some, hw], hr⟩

def visitedTree (g : Grammar) (tree : Value) : List Occurrence := (roots tree).flatMap (visited g)

theorem signalled_describeTree {g : Grammar} {tree : Value}
    (h : (describeTree g tree).fault = none) :
    signalled .visit (describeTree g tree).events = visitedTree g tree := by
  rw [events_describeTree h, signalled_flatMap]
  rfl

theorem mem_visitedTree {g : Grammar} {tree : Value} (h : (describeTree g tree).fault = none)
    (x : Occurrence) :
    x ∈ visitedTree g tree ↔ Reached g tree x.path ∧ node? g tree x.path = some x.node := by
  have hos := describeTree_fault_eq_none.mp h
  rw [visitedTree, roots, ← frame,
    mem_visited_children (children_frame tree) fun c hc => mem_visited c (hos c hc)]
  constructor
  · rintro ⟨s, path, child, hp, hs, hb, hr⟩
    replace hp : x.path = s :: path := hp
    rw [hp]
    exact ⟨(reached_cons hs).mpr hr, node?_eq_some.mpr ⟨s, path, child, rfl, hs, hb⟩⟩
  · rintro ⟨hr, hn⟩
    obtain ⟨s, path, child, hp, hs, hb⟩ := node?_eq_some.mp hn
    rw [hp] at hr
    exact ⟨s, path, child, hp, hs, hb, (reached_cons hs).mp hr⟩

theorem visitedTree_pairwise {g : Grammar} {tree : Value}
    (h : (describeTree g tree).fault = none) :
    (visitedTree g tree).Pairwise fun x y => Before x.path y.path := by
  have hos := describeTree_fault_eq_none.mp h
  exact flatMap_children_pairwise (o := frame tree) (children_frame tree)
    (fun c hc x hx => path_prefix_of_mem_visited (hos c hc) hx)
    (fun c hc => visited_pairwise c (hos c hc))

/-- Nothing fails at a node if nothing fails at the nodes that can be reached from it. -/
theorem describe_fault_of_evaluates {g : Grammar} (o : Occurrence)
    (h : ∀ path w, Passable g o.node path → below? g o.node path = some w → Evaluates g w) :
    (describe g o).fault = none := by
  induction o using visit_induction g with
  | skip o rule => rw [describe_skip rule]; rfl
  | scopeFault o r fault rule scope =>
    obtain ⟨⟨opens, hs⟩, -⟩ := h [] o.node (passable_nil.mpr (by rw [rule]; rfl)) rfl r rule
    rw [scope] at hs
    cases hs
  | childFault o r opens fault rule scope found =>
    obtain ⟨-, cs, hcs⟩ := h [] o.node (passable_nil.mpr (by rw [rule]; rfl)) rfl r rule
    have hc := Occurrence.children_eq_ok.mpr ⟨cs, hcs, rfl⟩
    rw [found] at hc
    cases hc
  | descend o r opens os rule scope found ih =>
    rw [describe_descend rule scope found, Report.fault_append_eq_none,
      Report.fault_append_eq_none, describeAll_fault_eq_none]
    refine ⟨rfl, fun c hc => ?_, rfl⟩
    obtain ⟨cs, hcs, rfl⟩ := Occurrence.children_eq_ok.mp found
    obtain ⟨⟨s, child⟩, hd, rfl⟩ := List.mem_map.mp hc
    have hs := (mem_children hcs).mp hd
    refine ih _ hc fun path w hp hb => ?_
    refine h (s :: path) w ((passable_cons rule).mpr ⟨child, hs, hp⟩) ?_
    simp only [below?, lookup_of_ruleOf rule, hs, Option.bind_some]
    exact hb

/-- Nothing fails in a tree if nothing fails at the nodes that are reached. -/
theorem describeTree_fault_of_evaluates {g : Grammar} {tree : Value}
    (h : ∀ path w, Reached g tree path → node? g tree path = some w → Evaluates g w) :
    (describeTree g tree).fault = none := by
  refine describeTree_fault_eq_none.mpr fun o ho => describe_fault_of_evaluates o ?_
  obtain ⟨⟨s, child⟩, hc, rfl⟩ := List.mem_map.mp ho
  have hs : tree.childAt? _ s = some child := (mem_children (children_frame tree)).mp hc
  exact fun path w hp hb => h (s :: path) w ((reached_cons hs).mpr hp)
    (node?_eq_some.mpr ⟨s, path, child, rfl, hs, hb⟩)

/-- If the rules can be evaluated at every node that is reached, a consumer that does
not fail is called for exactly the nodes at the end of a path through nodes with rules,
for each of them once, and in the order of the paths; so a node comes before all that
are below it. -/
theorem visited_in_order {σ : Type} (g : Grammar) (tree : Value)
    (h : ∀ path w, Reached g tree path → node? g tree path = some w → Evaluates g w)
    (f : σ → Event → σ) (own : σ) :
    let os := signalled .visit (calls g tree (Consumer.ofTotal f) own)
    let paths := os.map Occurrence.path
    (walk g tree (Consumer.ofTotal f) own).2 = none ∧
      (∀ path, path ∈ paths ↔ Reached g tree path) ∧
      (∀ o ∈ os, node? g tree o.path = some o.node) ∧
      paths.Nodup ∧ paths.Pairwise Before ∧
      ∀ (i j : Nat) (p q : List Slot),
        paths[i]? = some p → paths[j]? = some q → p <+: q → p ≠ q → i < j := by
  have hf := describeTree_fault_of_evaluates h
  have hsorted : ((visitedTree g tree).map Occurrence.path).Pairwise Before :=
    List.pairwise_map.mpr (visitedTree_pairwise hf)
  simp only [calls_ofTotal, walk_ofTotal, signalled_describeTree hf]
  refine ⟨hf, fun path => ?_, fun o ho => ((mem_visitedTree hf o).mp ho).2,
    nodup_of_sorted hsorted, hsorted, fun i j p q => index_lt_of_prefix hsorted⟩
  constructor
  · intro hp
    obtain ⟨o, ho, rfl⟩ := List.mem_map.mp hp
    exact ((mem_visitedTree hf o).mp ho).1
  · intro hr
    obtain ⟨w, hw, -⟩ := hr.2 path List.prefix_rfl hr.1
    have hpath : (⟨path.reverse, w⟩ : Occurrence).path = path := List.reverse_reverse path
    exact List.mem_map.mpr ⟨⟨path.reverse, w⟩,
      (mem_visitedTree hf _).mpr ⟨hpath.symm ▸ hr, hpath.symm ▸ hw⟩, hpath⟩

/-- The field `#x` of a class is visited, and after it its key. -/
theorem visited_in_order_field :
    let field : Value := .mapping [("type", .text "PropertyDefinition"),
      ("key", .mapping [("type", .text "PrivateIdentifier"), ("name", .text "x")])]
    let tree : Value := .mapping [("type", .text "Program"), ("body", .list [.null, field])]
    let calls := calls .standard tree (Consumer.ofTotal fun past e => e :: past) []
    let paths := (signalled .visit calls).map Occurrence.path
    [⟨0, 1⟩] ∈ paths ∧ [⟨0, 1⟩, ⟨0, 0⟩] ∈ paths ∧ paths.Pairwise Before := by
  intro field tree calls paths
  obtain ⟨-, hpaths, -, -, hsorted, -⟩ := visited_in_order .standard tree
    (fun _ node _ _ => evaluates_standard node) (fun past e => e :: past) []
  have hfield := ruleOf_standard (rfl : field.type? = some "PropertyDefinition") rfl
  have hkey := ruleOf_standard (rfl : (field.prop "key").type? = some "PrivateIdentifier") rfl
  have hslot : tree.childAt? [.data (.text "body")] ⟨0, 1⟩ = some field := rfl
  refine ⟨(hpaths _).mpr ((reached_cons hslot).mpr (passable_nil.mpr ?_)),
    (hpaths _).mpr ((reached_cons hslot).mpr ((passable_cons hfield).mpr ?_)), hsorted⟩
  · rw [hfield]
    rfl
  · exact ⟨field.prop "key", rfl, passable_nil.mpr (by rw [hkey]; rfl)⟩

end Walk

end Estree
