import Estree.Proofs.Walk.Report

/-!
A walk described by recursion.

`describe` says what a walk reports of a node: the scope opens if the node opens
one, the node is visited, then come the reports of the nodes below it, and last
the scope closes.  The nodes below a node are described apart from the way in which
the loop finds them, `children_eq_declared` and `topmost_eq_roots`.  The loop keeps the
recursive calls as tasks on its stack, and `walk_eq_feed` says that it calls the
consumer as the description has it.
-/

namespace Estree

namespace Value

/-- Children are the nodes under each name in turn, once all names are read. -/
theorem childrenFrom_eq (v : Value) (n : Nat) (names : List Entry) :
    v.childrenFrom n names = (names.mapM v.propNamed).map fun found =>
      (found.zipIdx n).flatMap fun held => held.1.nodesAt held.2 := by
  induction names generalizing n with
  | nil => rfl
  | cons name rest ih =>
    simp only [childrenFrom, ih, List.mapM_cons, bind, Except.bind]
    cases v.propNamed name with
    | error fault => rfl
    | ok found => cases List.mapM v.propNamed rest <;> rfl

end Value

namespace Walk

/-! ### The description -/

namespace Occurrence

/-- The nodes among the members of a list, which come at some index on under the `n`-th
name. -/
def membersFrom (o : Occurrence) (n : Nat) : Nat → List Value → List Occurrence
  | _, [] => []
  | i, v :: rest =>
    if v.isNode then ⟨⟨n, i⟩ :: o.place, v⟩ :: o.membersFrom n (i + 1) rest
    else o.membersFrom n (i + 1) rest

/-- The nodes that a value stands for under the `n`-th name: those among its members, or
the one that it is. -/
def nodesUnder (o : Occurrence) (n : Nat) : Value → List Occurrence
  | .list items => o.membersFrom n 0 items
  | v => if v.isNode then [⟨⟨n, 0⟩ :: o.place, v⟩] else []

/-- The nodes below a node as its rule declares them: the nodes that each of the
properties holds, in the order of their names. -/
def declared (o : Occurrence) (r : Rule) : Except Fault (List Occurrence) := do
  let found ← r.children.mapM o.node.propNamed
  return found.zipIdx.flatMap fun under => o.nodesUnder under.2 under.1

end Occurrence

/-- The nodes of a tree that stand below no other: what its body holds. -/
def topmost (tree : Value) : List Occurrence :=
  Occurrence.nodesUnder ⟨[], tree⟩ 0 (tree.prop "body")

/-- The events at a node before the nodes below it, one after another. -/
def announced (opens : Bool) (o : Occurrence) : List Event :=
  (if opens then [⟨.enter, o⟩] else []) ++ [⟨.visit, o⟩]

/-- The events at a node after the nodes below it. -/
def leaving (opens : Bool) (o : Occurrence) : List Event :=
  if opens then [⟨.leave, o⟩] else []

theorem Occurrence.membersFrom_eq (o : Occurrence) (n i : Nat) (items : List Value) :
    o.membersFrom n i items =
      ((items.zipIdx i).filter fun item => item.1.isNode).map fun item =>
        o.child (⟨n, item.2⟩, item.1) := by
  induction items generalizing i with
  | nil => rfl
  | cons v rest ih =>
    rw [membersFrom, ih, List.zipIdx_cons, List.filter_cons]
    cases v.isNode <;> rfl

theorem Occurrence.nodesUnder_eq (o : Occurrence) (n : Nat) (v : Value) :
    o.nodesUnder n v = (v.nodesAt n).map o.child := by
  cases v with
  | list items =>
    rw [nodesUnder, membersFrom_eq, Value.nodesAt, List.map_map]
    rfl
  | object style fields =>
    simp only [nodesUnder, Value.nodesAt]
    cases (Value.object style fields).isNode <;> rfl
  | _ => rfl

theorem Occurrence.children_eq_declared (o : Occurrence) (r : Rule) :
    o.children r = o.declared r := by
  simp only [children, declared, Rule.childrenOf, Value.children, Value.childrenFrom_eq, bind,
    Except.bind]
  cases List.mapM o.node.propNamed r.children with
  | error fault => rfl
  | ok found => simp only [Except.map, List.map_flatMap, nodesUnder_eq]; rfl

theorem topmost_eq_roots (tree : Value) : topmost tree = roots tree :=
  Occurrence.nodesUnder_eq ⟨[], tree⟩ 0 (tree.prop "body")

theorem announced_eq_entering (opens : Bool) (o : Occurrence) :
    announced opens o = entering opens o := by
  cases opens <;> rfl

/-- What a walk reports of a node and all below it.  A node without a rule is
passed over, and so is everything below it. -/
def describe (g : Grammar) (o : Occurrence) : Report :=
  match _h : ruleOf g o.node with
  | none => .empty
  | some r =>
    match r.opensScope o.node with
    | .error fault => ⟨[], some fault⟩
    | .ok opens =>
      ⟨announced opens o, none⟩ ++
        match _hc : o.declared r with
        | .error fault => ⟨[], some fault⟩
        | .ok os =>
          Report.concat (os.attach.map fun c => describe g c.1) ++ ⟨leaving opens o, none⟩
termination_by sizeOf o.node
decreasing_by
  exact sizeOf_lt_of_mem_children _h ((o.children_eq_declared r).trans _hc) c.2

/-- What a walk reports of nodes one after another. -/
def describeAll (g : Grammar) (os : List Occurrence) : Report := .concat (os.map (describe g))

/-- What a walk reports of a whole tree. -/
def describeTree (g : Grammar) (tree : Value) : Report := describeAll g (topmost tree)

theorem describeTree_eq (g : Grammar) (tree : Value) :
    describeTree g tree = describeAll g (roots tree) := by
  rw [describeTree, topmost_eq_roots]

/-! ### The ways a visit can go -/

/-- Visits are told apart by how far a rule can be followed; the nodes below are at
hand when everything could be evaluated. -/
theorem visit_induction (g : Grammar) {P : Occurrence → Prop}
    (skip : ∀ o, ruleOf g o.node = none → P o)
    (scopeFault : ∀ o r fault, ruleOf g o.node = some r → r.opensScope o.node = .error fault → P o)
    (childFault : ∀ o r opens fault, ruleOf g o.node = some r → r.opensScope o.node = .ok opens →
      o.children r = .error fault → P o)
    (descend : ∀ o r opens os, ruleOf g o.node = some r → r.opensScope o.node = .ok opens →
      o.children r = .ok os → (∀ c ∈ os, P c) → P o)
    (o : Occurrence) : P o := by
  cases rule : ruleOf g o.node with
  | none => exact skip o rule
  | some r =>
    cases scope : r.opensScope o.node with
    | error fault => exact scopeFault o r fault rule scope
    | ok opens =>
      cases found : o.children r with
      | error fault => exact childFault o r opens fault rule scope found
      | ok os =>
        exact descend o r opens os rule scope found fun c hc =>
          have := sizeOf_lt_of_mem_children rule found hc
          visit_induction g skip scopeFault childFault descend c
termination_by sizeOf o.node

variable {g : Grammar} {o : Occurrence} {r : Rule} {opens : Bool} {os : List Occurrence}
  {fault : Fault}

/-- The description in terms of what the loop works with. -/
theorem describe_eq (g : Grammar) (o : Occurrence) :
    describe g o =
      match ruleOf g o.node with
      | none => .empty
      | some r =>
        match r.opensScope o.node with
        | .error fault => ⟨[], some fault⟩
        | .ok opens =>
          ⟨entering opens o, none⟩ ++
            match o.children r with
            | .error fault => ⟨[], some fault⟩
            | .ok os => describeAll g os ++ ⟨leaving opens o, none⟩ := by
  rw [describe]
  split
  · rename_i rule
    rw [rule]
  · rename_i r rule
    simp only [rule, announced_eq_entering]
    cases r.opensScope o.node with
    | error fault => rfl
    | ok opens =>
      simp only [Occurrence.children_eq_declared]
      congr 1
      split
      · rename_i found
        rw [found]
      · rename_i found
        simp only [found, describeAll, List.map_attach_eq_pmap, List.pmap_eq_map]

theorem describe_skip (rule : ruleOf g o.node = none) : describe g o = .empty := by
  rw [describe_eq, rule]

theorem describe_scopeFault (rule : ruleOf g o.node = some r)
    (scope : r.opensScope o.node = .error fault) : describe g o = ⟨[], some fault⟩ := by
  simp only [describe_eq, rule, scope]

theorem describe_childFault (rule : ruleOf g o.node = some r)
    (scope : r.opensScope o.node = .ok opens) (found : o.children r = .error fault) :
    describe g o = ⟨entering opens o, some fault⟩ := by
  simp only [describe_eq, rule, scope, found]
  rw [Report.append_of_none rfl, List.append_nil]

theorem describe_descend (rule : ruleOf g o.node = some r)
    (scope : r.opensScope o.node = .ok opens) (found : o.children r = .ok os) :
    describe g o =
      ⟨entering opens o, none⟩ ++ (describeAll g os ++ ⟨leaving opens o, none⟩) := by
  simp only [describe_eq, rule, scope, found]

theorem describeAll_nil (g : Grammar) : describeAll g [] = .empty := rfl

theorem describeAll_cons (g : Grammar) (o : Occurrence) (os : List Occurrence) :
    describeAll g (o :: os) = describe g o ++ describeAll g os := rfl

theorem describeAll_append (as bs : List Occurrence) :
    describeAll g (as ++ bs) = describeAll g as ++ describeAll g bs := by
  induction as with
  | nil => exact (Report.empty_append _).symm
  | cons o as ih =>
    rw [List.cons_append, describeAll_cons, describeAll_cons, ih, Report.append_assoc]

/-- What holds of the reports of nodes, and of one report after another, holds of the
report of them all. -/
theorem describeAll_of {P : Report → Prop} (empty : P .empty)
    (append : ∀ a b, P a → P b → P (a ++ b)) (h : ∀ o ∈ os, P (describe g o)) :
    P (describeAll g os) := by
  induction os with
  | nil => exact empty
  | cons o os ih =>
    rw [describeAll_cons]
    exact append _ _ (h o List.mem_cons_self) (ih fun o' ho => h o' (List.mem_cons_of_mem o ho))

theorem describeAll_fault_eq_none :
    (describeAll g os).fault = none ↔ ∀ o ∈ os, (describe g o).fault = none := by
  simp [describeAll, Report.fault_concat_eq_none]

theorem describeTree_fault_eq_none {tree : Value} :
    (describeTree g tree).fault = none ↔ ∀ o ∈ roots tree, (describe g o).fault = none := by
  rw [describeTree_eq, describeAll_fault_eq_none]

theorem events_describeAll (h : (describeAll g os).fault = none) :
    (describeAll g os).events = os.flatMap fun o => (describe g o).events := by
  rw [describeAll, Report.events_concat h, List.flatMap_map]

theorem events_describeTree {tree : Value} (h : (describeTree g tree).fault = none) :
    (describeTree g tree).events = (roots tree).flatMap fun o => (describe g o).events := by
  rw [describeTree_eq] at h ⊢
  exact events_describeAll h

/-- Without a fault a node is passed over, or everything below it is reported between
what is reported of the node itself. -/
theorem complete_induction (g : Grammar)
    {motive : (o : Occurrence) → (describe g o).fault = none → Prop}
    (skip : ∀ o h, ruleOf g o.node = none → describe g o = .empty → motive o h)
    (descend : ∀ o h r opens os (_ : ruleOf g o.node = some r)
      (_ : r.opensScope o.node = .ok opens) (_ : o.children r = .ok os)
      (_ : (describe g o).events =
        entering opens o ++ (os.flatMap fun c => (describe g c).events) ++ leaving opens o)
      (hos : ∀ c ∈ os, (describe g c).fault = none), (∀ c hc, motive c (hos c hc)) → motive o h)
    (o : Occurrence) (h : (describe g o).fault = none) : motive o h := by
  induction o using visit_induction g with
  | skip o rule => exact skip o h rule (describe_skip rule)
  | scopeFault o r fault rule scope =>
    exfalso
    rw [describe_scopeFault rule scope] at h
    cases h
  | childFault o r opens fault rule scope found =>
    exfalso
    rw [describe_childFault rule scope found] at h
    cases h
  | descend o r opens os rule scope found ih =>
    have hd := describe_descend rule scope found
    have hn := h
    rw [hd, Report.fault_append_eq_none, Report.fault_append_eq_none] at hn
    have hos := describeAll_fault_eq_none.mp hn.2.1
    refine descend o h r opens os rule scope found ?_ hos fun c hc => ih c hc (hos c hc)
    rw [hd, Report.append_of_none rfl, Report.append_of_none hn.2.1, events_describeAll hn.2.1,
      List.append_assoc]

/-! ### The loop keeps to the description -/

variable {σ : Type}

theorem run_eq (g : Grammar) (c : Consumer σ) (s : State σ) :
    run g c s =
      match s.turn g c with
      | .finished own => (own, none)
      | .stopped own fault => (own, some fault)
      | .moved t => run g c t := by
  rw [run]
  split <;> rename_i h <;> simp only [h]

theorem run_done (g : Grammar) (c : Consumer σ) (scopes : Array Occurrence) (own : σ) :
    run g c ⟨#[], scopes, own⟩ = (own, none) := by
  rw [run_eq]; rfl

theorem run_push_leave (g : Grammar) (c : Consumer σ) (pending : Array Task)
    (scopes : Array Occurrence) (o : Occurrence) (own : σ) :
    run g c ⟨pending.push .leave, scopes.push o, own⟩ =
      Outcome.andThen (c own ⟨.leave, o⟩) fun own => run g c ⟨pending, scopes, own⟩ := by
  rw [run_eq, State.turn_push_leave]
  simp only [State.close, Array.back?_push, Array.pop_push]
  rcases c own ⟨.leave, o⟩ with ⟨own', _ | fault⟩ <;> rfl

theorem pile_cons (pending : Array Task) (o : Occurrence) (os : List Occurrence) :
    pile pending (o :: os) = (pile pending os).push (.visit o) := by
  apply Array.toList_inj.mp
  simp [pile]

/-- What a visit that succeeds does to the stacks. -/
theorem run_push_descend {g : Grammar} {o : Occurrence} {r : Rule} {opens : Bool}
    {os : List Occurrence} (rule : ruleOf g o.node = some r)
    (scope : r.opensScope o.node = .ok opens) (found : o.children r = .ok os) (c : Consumer σ)
    (pending : Array Task) (scopes : Array Occurrence) (own : σ) :
    run g c ⟨pending.push (.visit o), scopes, own⟩ =
      Outcome.andThen (feed c own (entering opens o)) fun own =>
        run g c ⟨pile (if opens then pending.push .leave else pending) os,
          if opens then scopes.push o else scopes, own⟩ := by
  rw [run_eq, State.turn_push_visit]
  simp only [State.visit, rule, scope, found]
  rcases feed c own (entering opens o) with ⟨own', _ | fault⟩ <;> rfl

/-- The end of a scope is reported for the node that opened it. -/
theorem run_leaving (g : Grammar) (c : Consumer σ) (opens : Bool) (o : Occurrence)
    (pending : Array Task) (scopes : Array Occurrence) (own : σ) :
    run g c ⟨if opens then pending.push .leave else pending,
        if opens then scopes.push o else scopes, own⟩ =
      Outcome.andThen (feed c own (leaving opens o)) fun own => run g c ⟨pending, scopes, own⟩ := by
  cases opens with
  | false => rfl
  | true =>
    simp only [if_true, leaving, feed_cons, run_push_leave, Outcome.andThen_assoc]
    rfl

/-- The loop does with a node on top of its stack what the description says, whatever
lies below. -/
def Described (g : Grammar) (c : Consumer σ) (o : Occurrence) : Prop :=
  ∀ pending scopes own,
    run g c ⟨pending.push (.visit o), scopes, own⟩ =
      ((describe g o).feed c own).andThen fun own => run g c ⟨pending, scopes, own⟩

theorem run_pile {g : Grammar} {c : Consumer σ} {os : List Occurrence}
    (h : ∀ o ∈ os, Described g c o) (pending : Array Task) (scopes : Array Occurrence) (own : σ) :
    run g c ⟨pile pending os, scopes, own⟩ =
      ((describeAll g os).feed c own).andThen fun own => run g c ⟨pending, scopes, own⟩ := by
  induction os generalizing own with
  | nil =>
    have hp : pile pending [] = pending := Array.toList_inj.mp (by simp [pile])
    rw [hp, describeAll_nil, Report.feed_empty, Outcome.andThen_none]
  | cons o os ih =>
    rw [pile_cons, h o List.mem_cons_self, describeAll_cons, Report.feed_append,
      Outcome.andThen_assoc]
    simp only [ih fun o' ho => h o' (List.mem_cons_of_mem o ho)]

theorem described (g : Grammar) (c : Consumer σ) (o : Occurrence) : Described g c o := by
  -- The stacks below stay open in `Described`: a child runs on those of its parent.
  induction o using visit_induction g with
  | skip o rule =>
    intro pending scopes own
    rw [run_eq, State.turn_push_visit, describe_skip rule]
    simp only [State.visit, rule]
    rfl
  | scopeFault o r fault rule scope =>
    intro pending scopes own
    rw [run_eq, State.turn_push_visit, describe_scopeFault rule scope]
    simp only [State.visit, rule, scope]
    rfl
  | childFault o r opens fault rule scope found =>
    intro pending scopes own
    rw [run_eq, State.turn_push_visit, describe_childFault rule scope found]
    simp only [State.visit, rule, scope, found, Report.feed]
    rcases feed c own (entering opens o) with ⟨own', _ | fault'⟩ <;> rfl
  | descend o r opens os rule scope found ih =>
    intro pending scopes own
    calc run g c ⟨pending.push (.visit o), scopes, own⟩
        = Outcome.andThen (feed c own (entering opens o)) fun own =>
            run g c ⟨pile (if opens then pending.push .leave else pending) os,
              if opens then scopes.push o else scopes, own⟩ :=
          run_push_descend rule scope found c pending scopes own
      _ = Outcome.andThen (feed c own (entering opens o)) fun own =>
            ((describeAll g os).feed c own).andThen fun own =>
              Outcome.andThen (feed c own (leaving opens o)) fun own =>
                run g c ⟨pending, scopes, own⟩ := by
          simp only [run_pile ih, run_leaving]
      _ = ((describe g o).feed c own).andThen fun own => run g c ⟨pending, scopes, own⟩ := by
          rw [describe_descend rule scope found]
          simp only [Report.feed_append, Report.feed_mk_none, Outcome.andThen_assoc]

/-- A walk calls the consumer with what the description reports. -/
theorem walk_eq_feed (g : Grammar) (tree : Value) (c : Consumer σ) (own : σ) :
    walk g tree c own = (describeTree g tree).feed c own := by
  rw [walk, start, run_pile fun o _ => described g c o, describeTree_eq]
  simp only [run_done]
  rcases (describeAll g (roots tree)).feed c own with ⟨own', _ | fault⟩ <;> rfl

end Walk

end Estree
