import Estree.Proofs.Walk.Scopes

/-!
How many turns a walk takes.

A turn may put more on the stack than it takes off, so neither the number of tasks nor
the size of what is pending goes down.  What does is the cost of the tasks, which a turn
lowers by one: so the turns are counted before the first is taken.  The cost of a tree is
the number of nodes that are met in it, with a rule or without, and one more for each of
them that opens a scope: `cost_start`.  Main statement: `turns_counted`.
-/

namespace Estree

namespace Walk

/-! ### Taking turns -/

namespace State

variable {σ : Type} {g : Grammar} {c : Consumer σ}

/-- So many turns lead from one state to another. -/
inductive Takes (g : Grammar) (c : Consumer σ) : Nat → State σ → State σ → Prop where
  | none (s : State σ) : Takes g c 0 s s
  | turn {n : Nat} {s t u : State σ} (first : s.turn g c = .moved t) (rest : Takes g c n t u) :
    Takes g c (n + 1) s u

theorem Takes.cost {n : Nat} {s t : State σ} (h : Takes g c n s t) :
    t.cost g + n = s.cost g := by
  induction h with
  | none s => rfl
  | turn first rest ih =>
    have hturn := cost_turn first
    omega

theorem Takes.run {n : Nat} {s t : State σ} (h : Takes g c n s t) :
    Walk.run g c s = Walk.run g c t := by
  induction h with
  | none s => rfl
  | turn first rest ih =>
    rw [run_eq, first]
    exact ih

theorem Takes.lockstep {n : Nat} {s t : State σ} (h : Takes g c n s t) (hs : s.Lockstep) :
    t.Lockstep := by
  induction h with
  | none s => exact hs
  | turn first rest ih => exact ih (lockstep_turn hs first)

/-- Turns can be taken up to a state that has no further one. -/
theorem exists_last (g : Grammar) (c : Consumer σ) (s : State σ) :
    ∃ n t, Takes g c n s t ∧ ∀ u, t.turn g c ≠ .moved u := by
  cases h : s.turn g c with
  | moved t =>
    obtain ⟨n, u, hu, hlast⟩ := exists_last g c t
    exact ⟨n + 1, u, .turn h hu, hlast⟩
  | finished own => exact ⟨0, s, .none s, fun u hu => by rw [h] at hu; cases hu⟩
  | stopped own fault => exact ⟨0, s, .none s, fun u hu => by rw [h] at hu; cases hu⟩
termination_by s.cost g
decreasing_by have := cost_turn h; omega

theorem close_ne_finished (s : State σ) (own : σ) : close c s ≠ .finished own := by
  intro h
  unfold close at h
  split at h
  · cases h
  · split at h <;> cases h

theorem visit_ne_finished (o : Occurrence) (s : State σ) (own : σ) :
    visit g c o s ≠ .finished own := by
  intro h
  unfold visit at h
  split at h
  · cases h
  · split at h
    · cases h
    · split at h
      · cases h
      · split at h <;> cases h

/-- There is a further turn as long as there are tasks. -/
theorem turn_eq_finished {s : State σ} {own : σ} (h : s.turn g c = .finished own) :
    s.pending = #[] ∧ s.own = own := by
  cases hp : s.pending.back? with
  | none =>
    simp only [turn, hp] at h
    cases h
    exact ⟨Array.back?_eq_none_iff.mp hp, rfl⟩
  | some task =>
    cases task with
    | leave =>
      simp only [turn, hp] at h
      exact absurd h (close_ne_finished _ own)
    | visit o =>
      simp only [turn, hp] at h
      exact absurd h (visit_ne_finished o _ own)

/-- A run without a fault takes as many turns as its cost, and nothing is left then. -/
theorem takes_of_run_eq_none {s : State σ} (hs : s.Lockstep) (h : (Walk.run g c s).2 = none) :
    ∃ last, Takes g c (s.cost g) s last ∧ last.pending = #[] ∧ last.scopes = #[] ∧
      Walk.run g c s = (last.own, none) := by
  obtain ⟨n, last, htakes, hlast⟩ := exists_last g c s
  have hrun := htakes.run
  rw [run_eq g c last] at hrun
  cases hturn : last.turn g c with
  | moved u => exact absurd hturn (hlast u)
  | stopped own fault =>
    rw [hturn] at hrun
    rw [hrun] at h
    cases h
  | finished own =>
    obtain ⟨hpending, rfl⟩ := turn_eq_finished hturn
    rw [hturn] at hrun
    have hcost := htakes.cost
    have hzero : last.cost g = 0 := by rw [State.cost, hpending]; rfl
    have hscopes : last.scopes = #[] := by
      have hend := htakes.lockstep hs
      rw [Lockstep, hpending] at hend
      exact Array.eq_empty_of_size_eq_zero hend.symm
    have hn : n = s.cost g := by omega
    exact ⟨last, hn ▸ htakes, hpending, hscopes, hrun⟩

end State

/-! ### The nodes that are met -/

/-- A node and all that is met below it, each node before those below it.  A node without
a rule is met, but nothing below it. -/
def met (g : Grammar) (o : Occurrence) : List Occurrence :=
  o :: (below g o).attach.flatMap fun c => met g c.1
termination_by sizeOf o.node
decreasing_by exact sizeOf_lt_of_mem_below c.2

def metTree (g : Grammar) (tree : Value) : List Occurrence := (roots tree).flatMap (met g)

theorem met_eq (g : Grammar) (o : Occurrence) : met g o = o :: (below g o).flatMap (met g) := by
  rw [met, List.flatMap_subtype (g := met g) fun _ _ => rfl, List.unattach_attach]

variable {g : Grammar}

theorem met_skip {o : Occurrence} (rule : ruleOf g o.node = none) : met g o = [o] := by
  rw [met_eq, below_of_none rule]
  rfl

theorem met_descend {o : Occurrence} {r : Rule} {os : List Occurrence}
    (rule : ruleOf g o.node = some r) (found : o.children r = .ok os) :
    met g o = o :: os.flatMap (met g) := by
  rw [met_eq, below_of_ok rule found]

/-- What is met below a node is at the end of a path from it. -/
theorem mem_met (o : Occurrence) (h : (describe g o).fault = none) :
    ∀ x, x ∈ met g o ↔
      ∃ path, x.path = o.path ++ path ∧ below? g o.node path = some x.node := by
  induction o, h using complete_induction g with
  | skip o h rule hd =>
    intro x
    rw [met_skip rule, List.mem_singleton]
    constructor
    · rintro rfl
      exact ⟨[], (List.append_nil _).symm, rfl⟩
    · rintro ⟨path, hp, hb⟩
      cases path with
      | nil => exact Occurrence.ext_path (by simpa using hp) (Option.some.inj hb).symm
      | cons s path =>
        rw [below?, lookup_of_ruleOf_eq_none rule] at hb
        cases hb
  | descend o h r opens os rule scope found hd hos ih =>
    intro x
    obtain ⟨cs, hcs, rfl⟩ := Occurrence.children_eq_ok.mp found
    rw [met_descend rule found, List.mem_cons,
      mem_flatMap_children (Q := fun v path w => below? g v path = some w) hcs ih]
    constructor
    · rintro (rfl | ⟨s, path, child, hp, hs, hb⟩)
      · exact ⟨[], (List.append_nil _).symm, rfl⟩
      · refine ⟨s :: path, hp, ?_⟩
        rw [below?, lookup_of_ruleOf rule, hs, Option.bind_some, hb]
    · rintro ⟨path, hp, hb⟩
      cases path with
      | nil => exact .inl (Occurrence.ext_path (by simpa using hp) (Option.some.inj hb).symm)
      | cons s path =>
        rw [below?, lookup_of_ruleOf rule] at hb
        obtain ⟨child, hs, hb⟩ := Option.bind_eq_some_iff.mp hb
        exact .inr ⟨s, path, child, hp, hs, hb⟩

theorem path_prefix_of_mem_met {o x : Occurrence} (h : (describe g o).fault = none)
    (hx : x ∈ met g o) : o.path <+: x.path := by
  obtain ⟨path, hp, -⟩ := (mem_met o h x).mp hx
  exact ⟨path, hp.symm⟩

theorem met_pairwise (o : Occurrence) (h : (describe g o).fault = none) :
    (met g o).Pairwise fun x y => Before x.path y.path := by
  induction o, h using complete_induction g with
  | skip o h rule hd => rw [met_skip rule]; exact List.pairwise_singleton _ _
  | descend o h r opens os rule scope found hd hos ih =>
    obtain ⟨cs, hcs, rfl⟩ := Occurrence.children_eq_ok.mp found
    rw [met_descend rule found]
    exact cons_flatMap_children_pairwise hcs
      (fun c hc x hx => path_prefix_of_mem_met (hos c hc) hx) ih

/-- The nodes that are visited are those met that have a rule. -/
theorem visited_eq_filter (o : Occurrence) (h : (describe g o).fault = none) :
    visited g o = (met g o).filter fun x => (ruleOf g x.node).isSome := by
  induction o, h using complete_induction g with
  | skip o h rule hd =>
    rw [visited, hd, met_skip rule,
      List.filter_cons_of_neg (by rw [rule]; exact Bool.false_ne_true)]
    rfl
  | descend o h r opens os rule scope found hd hos ih =>
    rw [visited_of_events hd, met_descend rule found,
      List.filter_cons_of_pos (by rw [rule]; rfl), List.filter_flatMap]
    exact congrArg (o :: ·) (List.flatMap_congr ih)

section Tree

variable {tree : Value} (h : (describeTree g tree).fault = none)

include h

theorem mem_metTree (x : Occurrence) : x ∈ metTree g tree ↔ node? g tree x.path = some x.node := by
  have hos := describeTree_fault_eq_none.mp h
  rw [metTree, roots, ← frame, mem_flatMap_children (Q := fun v path w => below? g v path = some w)
    (children_frame tree) fun c hc => mem_met c (hos c hc), node?_eq_some]
  rfl

theorem metTree_nodup : ((metTree g tree).map Occurrence.path).Nodup := by
  have hos := describeTree_fault_eq_none.mp h
  exact nodup_of_sorted (List.pairwise_map.mpr
    (flatMap_children_pairwise (o := frame tree) (children_frame tree)
      (fun c hc x hx => path_prefix_of_mem_met (hos c hc) hx)
      fun c hc => met_pairwise c (hos c hc)))

theorem visitedTree_eq_filter :
    visitedTree g tree = (metTree g tree).filter fun x => (ruleOf g x.node).isSome := by
  have hos := describeTree_fault_eq_none.mp h
  rw [visitedTree, metTree, List.filter_flatMap]
  exact List.flatMap_congr fun o ho => visited_eq_filter o (hos o ho)

/-- The scopes that open are those of the nodes met that open one. -/
theorem length_enters :
    (signalled .enter (describeTree g tree).events).length =
      (metTree g tree).countP fun x => opens g x.node := by
  have hrule : ∀ x : Occurrence,
      (opens g x.node && (ruleOf g x.node).isSome) = opens g x.node := by
    intro x
    cases rule : ruleOf g x.node with
    | none => rw [opens_of_none rule]; rfl
    | some r => exact Bool.and_true _
  rw [enters_eq_filter, signalled_describeTree h, visitedTree_eq_filter h, List.filter_filter,
    List.countP_eq_length_filter]
  simp only [hrule]

end Tree

/-! ### The cost of a tree -/

theorem below_induction (g : Grammar) {P : Occurrence → Prop}
    (step : ∀ o, (∀ c ∈ below g o, P c) → P o) (o : Occurrence) : P o :=
  step o fun c _ => below_induction g step c
termination_by sizeOf o.node
decreasing_by rename_i hc; exact sizeOf_lt_of_mem_below hc

/-- One for each of the nodes, and one more for each that opens a scope. -/
def weight (g : Grammar) (os : List Occurrence) : Nat :=
  os.length + os.countP fun x => opens g x.node

theorem weight_flatMap {f : Occurrence → List Occurrence} {os : List Occurrence}
    (h : ∀ o ∈ os, cost g o = weight g (f o)) :
    total (os.map (cost g)) = weight g (os.flatMap f) := by
  induction os with
  | nil => rfl
  | cons o os ih =>
    have ho := h o List.mem_cons_self
    have hos := ih fun o' ho' => h o' (List.mem_cons_of_mem o ho')
    rw [List.map_cons, total_cons, ho, hos]
    simp only [weight, List.flatMap_cons, List.length_append, List.countP_append]
    omega

theorem cost_eq_weight (o : Occurrence) : cost g o = weight g (met g o) := by
  induction o using below_induction g with
  | step o ih =>
    rw [cost_eq, weight_flatMap ih, met_eq]
    simp only [weight, List.length_cons, List.countP_cons]
    omega

theorem cost_start {σ : Type} (g : Grammar) (tree : Value) (own : σ) :
    (start tree own).cost g = weight g (metTree g tree) := by
  rw [start, State.cost_pile, weight_flatMap fun o _ => cost_eq_weight o]
  rfl

/-! ### A name that stands twice -/

/-- Its one type names the same child twice. -/
def doubling : Grammar where
  rules := Keyed.write .empty (.text "Pair") (.text "Pair")
    { Rule.default with children := [.data (.text "next"), .data (.text "next")] }

/-- A node of that type with so many below it, each the child of the one above. -/
def chain : Nat → Value
  | 0 => .mapping [("type", .text "Pair")]
  | n + 1 => .mapping [("type", .text "Pair"), ("next", chain n)]

/-- A tree whose body is one node. -/
def framing (node : Value) : Value := .mapping [("type", .text "Program"), ("body", node)]

theorem type?_chain (n : Nat) : (chain n).type? = some "Pair" := by cases n <;> rfl

theorem nodesAt_chain (i n : Nat) : (chain n).nodesAt i = [(⟨i, 0⟩, chain n)] := by
  cases n <;> rfl

theorem rule?_doubling {type : Text} {r : Rule} (h : doubling.rule? type = some r) :
    r = { Rule.default with children := [.data (.text "next"), .data (.text "next")] } := by
  rw [Grammar.rule?, doubling, Keyed.read?_write] at h
  split at h
  · exact (Option.some.inj h).symm
  · cases h

theorem ruleOf_doubling {node : Value} {r : Rule} (rule : ruleOf doubling node = some r) :
    r.isStatic = true ∧ r.newScope = .absent := by
  obtain ⟨type, -, htype⟩ := Option.bind_eq_some_iff.mp rule
  rw [rule?_doubling htype]
  exact ⟨rfl, rfl⟩

theorem opens_doubling (node : Value) : opens doubling node = false := by
  cases rule : ruleOf doubling node with
  | none => exact opens_of_none rule
  | some r =>
    obtain ⟨hstatic, hscope⟩ := ruleOf_doubling rule
    have hopens := Rule.opensScope_ok hstatic node
    rw [hscope] at hopens
    exact opens_of_ok rule hopens

theorem ruleOf_chain (n : Nat) :
    ruleOf doubling (chain n) =
      some { Rule.default with children := [.data (.text "next"), .data (.text "next")] } := by
  rw [ruleOf, type?_chain]
  rfl

theorem below_chain (place : Place) (n : Nat) :
    below doubling ⟨place, chain (n + 1)⟩ =
      [⟨⟨0, 0⟩ :: place, chain n⟩, ⟨⟨1, 0⟩ :: place, chain n⟩] := by
  have hchildren : (chain (n + 1)).childrenFrom 0 [.data (.text "next"), .data (.text "next")] =
      .ok ((chain n).nodesAt 0 ++ ((chain n).nodesAt 1 ++ [])) := rfl
  rw [nodesAt_chain, nodesAt_chain] at hchildren
  exact below_of_ok (ruleOf_chain (n + 1)) (Occurrence.children_eq_ok.mpr ⟨_, hchildren, rfl⟩)

theorem length_met_chain (place : Place) (n : Nat) :
    (met doubling ⟨place, chain n⟩).length + 1 = Nat.pow 2 (n + 1) := by
  induction n generalizing place with
  | zero =>
    have hnone : below doubling ⟨place, chain 0⟩ = [] :=
      below_of_ok (ruleOf_chain 0) (Occurrence.children_eq_ok.mpr ⟨[], rfl, rfl⟩)
    rw [met_eq, hnone]
    rfl
  | succ n ih =>
    have hfirst := ih (⟨0, 0⟩ :: place)
    have hsecond := ih (⟨1, 0⟩ :: place)
    have hpow : Nat.pow 2 (n + 1 + 1) = Nat.pow 2 (n + 1) * 2 := rfl
    rw [met_eq, below_chain]
    simp only [List.flatMap_cons, List.flatMap_nil, List.append_nil, List.length_cons,
      List.length_append]
    omega

theorem length_metTree_chain (n : Nat) :
    (metTree doubling (framing (chain n))).length + 1 = Nat.pow 2 (n + 1) := by
  have hroots : roots (framing (chain n)) = [⟨[⟨0, 0⟩], chain n⟩] := by
    have hbody : (framing (chain n)).prop "body" = chain n := rfl
    rw [roots, hbody, nodesAt_chain]
    rfl
  rw [metTree, hroots, List.flatMap_singleton]
  exact length_met_chain [⟨0, 0⟩] n

/-! ### Whole walks -/

/-- If the rules can be evaluated at every node that is reached and the consumer does not
fail, the loop ends with nothing pending and no scope open.  It takes one turn for each
node that is met, which is each path that leads to a node by the names declared for the
types above it, whether or not the node has a rule itself; and one for each scope that is
opened; never more.  A name that a rule declares twice makes two paths, so the nodes met
can be exponentially many in the depth of a tree. -/
theorem turns_counted {σ : Type} (g : Grammar) (tree : Value)
    (h : ∀ path w, Reached g tree path → node? g tree path = some w → Evaluates g w)
    (f : σ → Event → σ) (own : σ) :
    let c := Consumer.ofTotal f
    let met := metTree g tree
    let turns := met.length + (signalled .enter (calls g tree c own)).length
    (∀ o, o ∈ met ↔ node? g tree o.path = some o.node) ∧
      (met.map Occurrence.path).Nodup ∧
      (∃ last, State.Takes g c turns (start tree own) last ∧ last.pending = #[] ∧
        last.scopes = #[] ∧ walk g tree c own = (last.own, none)) ∧
      (∀ n s, State.Takes g c n (start tree own) s → n ≤ turns) ∧
      ∀ depth, (metTree doubling (framing (chain depth))).length + 1 = Nat.pow 2 (depth + 1) := by
  intro c met turns
  have hf := describeTree_fault_of_evaluates h
  have hturns : (start tree own).cost g = turns := by
    rw [cost_start, weight, ← length_enters hf, ← calls_ofTotal g tree f own]
  have hwalk : (walk g tree c own).2 = none := by rw [walk_ofTotal, hf]
  refine ⟨mem_metTree hf, metTree_nodup hf, ?_, fun n s hs => ?_, length_metTree_chain⟩
  · rw [← hturns]
    exact State.takes_of_run_eq_none (State.lockstep_start tree own) hwalk
  · have hcost := hs.cost
    omega

/-- A node whose child is named twice takes three turns, one for itself and two for the
child. -/
theorem turns_counted_doubled :
    (∀ path w, Reached doubling (framing (chain 1)) path →
        node? doubling (framing (chain 1)) path = some w → Evaluates doubling w) ∧
      ∃ last, State.Takes doubling (Consumer.ofTotal fun n _ => n + 1) 3
        (start (framing (chain 1)) 0) last ∧ last.pending = #[] ∧ last.scopes = #[] := by
  have hrules : ∀ path w, Reached doubling (framing (chain 1)) path →
      node? doubling (framing (chain 1)) path = some w → Evaluates doubling w := fun _ _ _ _ =>
    evaluates_of_isStatic fun _ rule => (ruleOf_doubling rule).1
  obtain ⟨-, -, ⟨last, htakes, hpending, hscopes, -⟩, -, hlength⟩ :=
    turns_counted doubling (framing (chain 1)) hrules (fun n _ => n + 1) 0
  have hmet : (metTree doubling (framing (chain 1))).length = 3 := Nat.succ.inj (hlength 1)
  have henters : (signalled .enter (calls doubling (framing (chain 1))
      (Consumer.ofTotal fun n _ => n + 1) 0)).length = 0 := by
    rw [calls_ofTotal, enters_eq_filter]
    simp [opens_doubling]
  rw [hmet, henters] at htakes
  exact ⟨hrules, last, htakes, hpending, hscopes⟩

end Walk

end Estree
