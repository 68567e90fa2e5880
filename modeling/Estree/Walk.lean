import Estree.Grammar.Standard

/-!
Walking a tree: every node of a known type once, each before the nodes below it,
and a consumer that is called at each node, when a scope opens and when it closes.

The tasks to come lie on a stack, so the depth of a tree is no limit.
-/

namespace Estree

namespace Walk

/-- The slots on the way from the root of a tree to a node, the last one first. -/
abbrev Place := List Slot

/-- A node where it stands in a tree.  Equal nodes at different places are told
apart. -/
structure Occurrence where
  place : Place
  node : Value
  deriving Repr

def ruleOf (g : Grammar) (node : Value) : Option Rule := node.type?.bind g.rule?

theorem isNode_of_ruleOf {g : Grammar} {node : Value} {r : Rule} (h : ruleOf g node = some r) :
    node.isNode = true := by
  unfold ruleOf at h
  cases ht : node.type? with
  | none => simp [ht] at h
  | some t => simp [Value.isNode, ht]

namespace Occurrence

def child (o : Occurrence) (c : Slot × Value) : Occurrence := ⟨c.1 :: o.place, c.2⟩

/-- The nodes to visit below a node, in visiting order. -/
def children (o : Occurrence) (r : Rule) : Except Fault (List Occurrence) :=
  (r.childrenOf o.node).map (List.map o.child)

theorem children_eq_ok {o : Occurrence} {r : Rule} {os : List Occurrence} :
    o.children r = .ok os ↔ ∃ cs, r.childrenOf o.node = .ok cs ∧ os = cs.map o.child := by
  unfold children
  cases r.childrenOf o.node <;> simp [Except.map, eq_comm]

end Occurrence

/-- The nodes a walk starts from: the body of the tree.  The tree itself is only
their frame. -/
def roots (tree : Value) : List Occurrence :=
  ((tree.prop "body").nodesAt 0).map (Occurrence.child ⟨[], tree⟩)

/-! ### Consumers -/

inductive Signal where
  /-- A scope opens, before its node is visited. -/
  | enter
  | visit
  /-- A scope closes, after everything below its node. -/
  | leave
  deriving DecidableEq, Repr

structure Event where
  signal : Signal
  occurrence : Occurrence
  deriving Repr

def Event.node (e : Event) : Value := e.occurrence.node

/-- The events at a node before the nodes below it. -/
def entering (opens : Bool) (o : Occurrence) : List Event :=
  if opens then [⟨.enter, o⟩, ⟨.visit, o⟩] else [⟨.visit, o⟩]

/-- What a consumer has come to, and the fault that ended its work, if one did. -/
abbrev Outcome (σ : Type) := σ × Option Fault

/-- A consumer is called with an event in some state of its own, and may fail. -/
abbrev Consumer (σ : Type) := σ → Event → Outcome σ

variable {σ : Type}

/-- Call a consumer with events in order, up to the first that it fails on. -/
def feed (c : Consumer σ) : σ → List Event → Outcome σ
  | own, [] => (own, none)
  | own, e :: rest =>
    match c own e with
    | (own, none) => feed c own rest
    | (own, some fault) => (own, some fault)

/-! ### The number of turns -/

def opens (g : Grammar) (node : Value) : Bool :=
  match ruleOf g node with
  | none => false
  | some rule => (rule.opensScope node).toOption.getD false

/-- The nodes that a visit of a node finds below it. -/
def below (g : Grammar) (o : Occurrence) : List Occurrence :=
  match ruleOf g o.node with
  | none => []
  | some rule => (o.children rule).toOption.getD []

theorem opens_of_none {g : Grammar} {node : Value} (rule : ruleOf g node = none) :
    opens g node = false := by simp only [opens, rule]

theorem opens_of_ok {g : Grammar} {node : Value} {r : Rule} {b : Bool}
    (rule : ruleOf g node = some r) (scope : r.opensScope node = .ok b) : opens g node = b := by
  simp only [opens, rule, scope]; rfl

theorem below_of_none {g : Grammar} {o : Occurrence} (rule : ruleOf g o.node = none) :
    below g o = [] := by simp only [below, rule]

theorem below_of_ok {g : Grammar} {o : Occurrence} {r : Rule} {os : List Occurrence}
    (rule : ruleOf g o.node = some r) (found : o.children r = .ok os) : below g o = os := by
  simp only [below, rule, found]; rfl

theorem sizeOf_lt_of_mem_children {g : Grammar} {o c : Occurrence} {r : Rule}
    {os : List Occurrence} (rule : ruleOf g o.node = some r) (found : o.children r = .ok os)
    (hc : c ∈ os) : sizeOf c.node < sizeOf o.node := by
  obtain ⟨cs, hcs, rfl⟩ := Occurrence.children_eq_ok.mp found
  obtain ⟨s, hs, rfl⟩ := List.mem_map.mp hc
  exact Value.sizeOf_lt_of_mem_children (isNode_of_ruleOf rule) hcs hs

theorem sizeOf_lt_of_mem_below {g : Grammar} {o c : Occurrence} (h : c ∈ below g o) :
    sizeOf c.node < sizeOf o.node := by
  cases rule : ruleOf g o.node with
  | none => rw [below_of_none rule] at h; cases h
  | some r =>
    cases found : o.children r with
    | error fault => simp only [below, rule, found] at h; cases h
    | ok os => exact sizeOf_lt_of_mem_children rule found (below_of_ok rule found ▸ h)

def total (ns : List Nat) : Nat := ns.foldr (fun n m => n + m) 0

@[simp] theorem total_nil : total [] = 0 := rfl

@[simp] theorem total_cons (n : Nat) (ns : List Nat) : total (n :: ns) = n + total ns := rfl

@[simp] theorem total_append (ms ns : List Nat) : total (ms ++ ns) = total ms + total ns := by
  induction ms with
  | nil => simp only [List.nil_append, total_nil]; omega
  | cons m ms ih => simp only [List.cons_append, total_cons, ih]; omega

theorem total_reverse (ns : List Nat) : total ns.reverse = total ns := by
  induction ns with
  | nil => rfl
  | cons n ns ih =>
    simp only [List.reverse_cons, total_append, total_cons, total_nil, ih]; omega

/-- The number of turns that a node comes to: one for itself, one for the end of
the scope it opens, and those of the nodes below it. -/
def cost (g : Grammar) (o : Occurrence) : Nat :=
  1 + (if opens g o.node then 1 else 0) + total ((below g o).attach.map fun c => cost g c.1)
termination_by sizeOf o.node
decreasing_by exact sizeOf_lt_of_mem_below c.2

theorem cost_eq (g : Grammar) (o : Occurrence) :
    cost g o = 1 + (if opens g o.node then 1 else 0) + total ((below g o).map (cost g)) := by
  rw [cost, List.map_attach_eq_pmap, List.pmap_eq_map]

/-! ### The loop -/

inductive Task where
  | visit (o : Occurrence)
  /-- Close the innermost open scope. -/
  | leave
  deriving Repr

def Task.cost (g : Grammar) : Task → Nat
  | .visit o => Walk.cost g o
  | .leave => 1

structure State (σ : Type) where
  /-- The tasks to come, the next one last. -/
  pending : Array Task
  /-- The nodes whose scopes are open, the innermost last. -/
  scopes : Array Occurrence
  /-- The state of the consumer. -/
  own : σ

/-- The tasks with visits before them, the first visit next. -/
def pile (pending : Array Task) (os : List Occurrence) : Array Task :=
  pending ++ (os.map Task.visit).reverse

namespace State

inductive Turn (σ : Type) where
  | finished (own : σ)
  | stopped (own : σ) (fault : Fault)
  | moved (state : State σ)

def close (c : Consumer σ) (s : State σ) : Turn σ :=
  match s.scopes.back? with
  | none => .stopped s.own .noScope
  | some o =>
    match c s.own ⟨.leave, o⟩ with
    | (own, some fault) => .stopped own fault
    | (own, none) => .moved ⟨s.pending, s.scopes.pop, own⟩

/-- Visit a node.  The nodes below it come before what is pending, and the end of
its scope comes between.  A node without a rule is passed over. -/
def visit (g : Grammar) (c : Consumer σ) (o : Occurrence) (s : State σ) : Turn σ :=
  match ruleOf g o.node with
  | none => .moved s
  | some rule =>
    match rule.opensScope o.node with
    | .error fault => .stopped s.own fault
    | .ok opens =>
      match feed c s.own (entering opens o) with
      | (own, some fault) => .stopped own fault
      | (own, none) =>
        match o.children rule with
        | .error fault => .stopped own fault
        | .ok children =>
          .moved ⟨pile (if opens then s.pending.push .leave else s.pending) children,
            if opens then s.scopes.push o else s.scopes, own⟩

def turn (g : Grammar) (c : Consumer σ) (s : State σ) : Turn σ :=
  match s.pending.back? with
  | none => .finished s.own
  | some .leave => close c ⟨s.pending.pop, s.scopes, s.own⟩
  | some (.visit o) => visit g c o ⟨s.pending.pop, s.scopes, s.own⟩

def cost (g : Grammar) (s : State σ) : Nat := total (s.pending.toList.map (Task.cost g))

end State

namespace State

/-- Everything that a turn can do to the state, short of an end. -/
inductive Move (g : Grammar) (c : Consumer σ) : State σ → State σ → Prop where
  | skip {pending scopes own o} (rule : ruleOf g o.node = none) :
    Move g c ⟨pending.push (.visit o), scopes, own⟩ ⟨pending, scopes, own⟩
  | descend {pending scopes own own' o r opens os} (rule : ruleOf g o.node = some r)
      (scope : r.opensScope o.node = .ok opens) (found : o.children r = .ok os)
      (called : feed c own (entering opens o) = (own', none)) :
    Move g c ⟨pending.push (.visit o), scopes, own⟩
      ⟨pile (if opens then pending.push .leave else pending) os,
        if opens then scopes.push o else scopes, own'⟩
  | close {pending scopes own own' o} (called : c own ⟨.leave, o⟩ = (own', none)) :
    Move g c ⟨pending.push .leave, scopes.push o, own⟩ ⟨pending, scopes, own'⟩

theorem turn_push_leave (g : Grammar) (c : Consumer σ) (pending : Array Task)
    (scopes : Array Occurrence) (own : σ) :
    turn g c ⟨pending.push .leave, scopes, own⟩ = close c ⟨pending, scopes, own⟩ := by
  simp only [turn, Array.back?_push, Array.pop_push]

theorem turn_push_visit (g : Grammar) (c : Consumer σ) (pending : Array Task) (o : Occurrence)
    (scopes : Array Occurrence) (own : σ) :
    turn g c ⟨pending.push (.visit o), scopes, own⟩ = visit g c o ⟨pending, scopes, own⟩ := by
  simp only [turn, Array.back?_push, Array.pop_push]

theorem turn_eq_moved {g : Grammar} {c : Consumer σ} {s t : State σ}
    (h : s.turn g c = .moved t) : Move g c s t := by
  obtain ⟨pending, scopes, own⟩ := s
  cases hp : pending.back? with
  | none => simp only [turn, hp] at h; cases h
  | some task =>
    obtain ⟨rest, rfl⟩ := Array.back?_eq_some_iff.mp hp
    cases task with
    | leave =>
      rw [turn_push_leave] at h
      cases hs : scopes.back? with
      | none => simp only [close, hs] at h; cases h
      | some o =>
        obtain ⟨outer, rfl⟩ := Array.back?_eq_some_iff.mp hs
        cases hc : c own ⟨.leave, o⟩ with
        | mk own' fault =>
          simp only [close, hs, hc, Array.pop_push] at h
          cases fault <;> cases h
          exact .close hc
    | visit o =>
      rw [turn_push_visit, visit] at h
      cases hr : ruleOf g o.node with
      | none => simp only [hr] at h; cases h; exact .skip hr
      | some r =>
        cases ho : r.opensScope o.node with
        | error fault => simp only [hr, ho] at h; cases h
        | ok opens =>
          cases hf : feed c own (entering opens o) with
          | mk own' fault =>
            cases fault with
            | some fault => simp only [hr, ho, hf] at h; cases h
            | none =>
              cases hc : o.children r with
              | error fault => simp only [hr, ho, hf, hc] at h; cases h
              | ok os => simp only [hr, ho, hf, hc] at h; cases h; exact .descend hr ho hc hf

theorem cost_push (g : Grammar) (pending : Array Task) (task : Task) (scopes : Array Occurrence)
    (own : σ) :
    cost g ⟨pending.push task, scopes, own⟩ = task.cost g + cost g ⟨pending, scopes, own⟩ := by
  simp only [cost, Array.toList_push, List.map_append, List.map_cons, List.map_nil, total_append,
    total_cons, total_nil]
  omega

theorem cost_pile (g : Grammar) (pending : Array Task) (os : List Occurrence)
    (scopes : Array Occurrence) (own : σ) :
    cost g ⟨pile pending os, scopes, own⟩ =
      total (os.map (Walk.cost g)) + cost g ⟨pending, scopes, own⟩ := by
  have h : ((os.map Task.visit).map (Task.cost g)) = os.map (Walk.cost g) := by
    rw [List.map_map]; rfl
  simp only [cost, pile, Array.toList_appendList, List.map_append, List.map_reverse, total_append,
    total_reverse, h]
  omega

/-- A turn takes one from the number of turns to take. -/
theorem cost_turn {g : Grammar} {c : Consumer σ} {s t : State σ} (h : s.turn g c = .moved t) :
    t.cost g + 1 = s.cost g := by
  cases turn_eq_moved h with
  | skip rule =>
    rename_i o
    have ho : Walk.cost g o = 1 := by
      simp [cost_eq, opens_of_none rule, below_of_none rule]
    rw [cost_push, Task.cost, ho]
    omega
  | descend rule scope found called =>
    rename_i o _ opens os
    have ho : Walk.cost g o = 1 + (if opens then 1 else 0) + total (os.map (Walk.cost g)) := by
      rw [cost_eq, opens_of_ok rule scope, below_of_ok rule found]
    rw [cost_pile, cost_push, Task.cost, ho]
    cases opens
    · simp only [cost, Bool.false_eq_true, if_false]
      omega
    · simp only [if_true, cost_push, Task.cost]
      simp only [cost]
      omega
  | close called =>
    rw [cost_push, Task.cost]
    simp only [cost]
    omega

end State

/-- Take turns until none is left. -/
def run (g : Grammar) (c : Consumer σ) (s : State σ) : Outcome σ :=
  match _h : s.turn g c with
  | .finished own => (own, none)
  | .stopped own fault => (own, some fault)
  | .moved t => run g c t
termination_by s.cost g
decreasing_by have := State.cost_turn _h; omega

def start (tree : Value) (own : σ) : State σ := ⟨pile #[] (roots tree), #[], own⟩

def walk (g : Grammar) (tree : Value) (c : Consumer σ) (own : σ) : Outcome σ :=
  run g c (start tree own)

/-- Walk a tree by the grammar that is given, or else by the standard one. -/
def under (given : Option Grammar) (tree : Value) (c : Consumer σ) (own : σ) : Outcome σ :=
  walk (.chosen given) tree c own

end Walk

end Estree
