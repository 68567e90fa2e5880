import Estree.Proofs.Grammar.Branches
import Estree.Proofs.Trace.Lines
import Estree.Proofs.Walk.Calls

/-!
Branches in traces under the standard grammar.

No setting reaches anything but the branch counts: the trace under other settings is the
same trace with other counts written into it, `ofTree_standard`, and it fails alike.  The
branches of a trace are then a sum over the gates that are open.
-/

namespace Estree

open Grammar (Gate alwaysBranches branchCount cyclomaticFor_standard)

namespace Walk

/-- The nodes that a walk visits, in order. -/
def visitedNodes (g : Grammar) (tree : Value) : List Value :=
  (signalled .visit (report g tree).events).map Occurrence.node

theorem total_map_add {α : Type} (f h : α → Nat) (as : List α) :
    total (as.map fun a => f a + h a) = total (as.map f) + total (as.map h) := by
  induction as with
  | nil => rfl
  | cons a as ih =>
    simp only [List.map_cons, total_cons, ih]
    omega

theorem total_map_le {α : Type} {f h : α → Nat} {as : List α} (hle : ∀ a ∈ as, f a ≤ h a) :
    total (as.map f) ≤ total (as.map h) := by
  induction as with
  | nil => exact Nat.le_refl 0
  | cons a as ih =>
    have ha := hle a List.mem_cons_self
    have has := ih fun b hb => hle b (List.mem_cons_of_mem a hb)
    simp only [List.map_cons, total_cons]
    omega

end Walk

namespace Grammar

open Walk (total total_map_add total_map_le)

theorem branchCount_le {flags flags' : Flags}
    (h : ∀ gate : Gate, gate.isOn flags = true → gate.isOn flags' = true) (node : Value) :
    branchCount flags node ≤ branchCount flags' node := by
  refine Nat.add_le_add_left (total_map_le fun gate _ => ?_) _
  by_cases hon : gate.isOn flags = true
  · exact Nat.le_of_eq (by rw [hon, h gate hon])
  · simp [hon]

/-- The branches of nodes, counted gate by gate. -/
theorem total_branchCount (flags : Flags) (nodes : List Value) :
    total (nodes.map (branchCount flags)) =
      nodes.countP alwaysBranches +
        total (Gate.all.map fun gate =>
          if gate.isOn flags then nodes.countP gate.branches else 0) := by
  induction nodes with
  | nil =>
    have hzero : ∀ gate : Gate,
        (if gate.isOn flags then ([] : List Value).countP gate.branches else 0) = 0 :=
      fun gate => ite_self 0
    simp only [hzero]
    rfl
  | cons node nodes ih =>
    -- Each gate counts the first node by itself, and so do all gates together.
    have hgate : ∀ gate : Gate,
        (if gate.isOn flags then (node :: nodes).countP gate.branches else 0) =
          (if gate.branches node && gate.isOn flags then 1 else 0) +
            if gate.isOn flags then nodes.countP gate.branches else 0 := by
      intro gate
      rw [List.countP_cons]
      by_cases hon : gate.isOn flags = true
      · simp only [hon, if_true, Bool.and_true]
        omega
      · simp [hon]
    have hgates := total_map_add
      (fun gate : Gate => if gate.branches node && gate.isOn flags then 1 else 0)
      (fun gate : Gate => if gate.isOn flags then nodes.countP gate.branches else 0) Gate.all
    simp only [hgate]
    rw [hgates, List.map_cons, Walk.total_cons, ih, List.countP_cons, branchCount]
    omega

end Grammar

/-! ### Settings and lines -/

namespace Contribution

def withBranches (flags : Flags) (node : Value) (c : Contribution) : Contribution :=
  { c with cyclomatic := .int (branchCount flags node) }

theorem of_standard (flags flags' : Flags) (node : Value) :
    of .standard flags' node = (of .standard flags node).map (withBranches flags' node) := by
  have hmap : ∀ {α β γ : Type} (x : Except Fault α) (f : α → Except Fault β) (h : β → γ),
      (x.bind f).map h = x.bind fun a => (f a).map h := by
    intro α β γ x f h
    cases x <;> rfl
  simp only [of, bind, hmap, cyclomaticFor_standard]
  rfl

theorem cyclomatic_of_standard {flags : Flags} {node : Value} {c : Contribution}
    (h : of .standard flags node = .ok c) : c.cyclomatic = .int (branchCount flags node) := by
  have hsame := of_standard flags flags node
  rw [h] at hsame
  exact congrArg cyclomatic (Except.ok.inj hsame)

end Contribution

namespace Trace

open Walk (Event describeTree signalled signalled_cons total visitedNodes report_eq_describeTree)

variable {flags : Flags}

/-- The line with the branches that its node has under the settings. -/
def Line.withBranches (flags : Flags) (l : Line) : Line :=
  { l with contribution := l.contribution.map (Contribution.withBranches flags l.node) }

theorem Line.of_standard (flags flags' : Flags) (depth : Int) (e : Event) :
    Line.of .standard flags' depth e =
      (Line.of .standard flags depth e).map (Line.withBranches flags') := by
  obtain ⟨signal, o⟩ := e
  cases signal with
  | enter => rfl
  | visit =>
    simp only [Line.of, Contribution.of_standard flags flags']
    cases Contribution.of .standard flags (Event.node ⟨.visit, o⟩) <;> rfl
  | leave => rfl

theorem linesOf_standard (flags flags' : Flags) (depth : Int) (es : List Event) :
    linesOf .standard flags' depth es =
      (linesOf .standard flags depth es).map (List.map (Line.withBranches flags')) := by
  induction es generalizing depth with
  | nil => rfl
  | cons e es ih =>
    rw [linesOf_cons, linesOf_cons, Line.of_standard flags flags', ih]
    cases Line.of .standard flags depth e with
    | error fault => rfl
    | ok l => cases linesOf .standard flags (depthAfter depth e) es <;> rfl

/-- Settings reach nothing but the branches. -/
theorem ofTree_standard (flags flags' : Flags) (tree : Value) :
    ofTree .standard flags' tree =
      (ofTree .standard flags tree).map (List.map (Line.withBranches flags')) := by
  rw [ofTree_eq, ofTree_eq, linesOf_standard flags flags']
  cases linesOf .standard flags 0 (describeTree .standard tree).events with
  | error fault => rfl
  | ok ls => cases (describeTree .standard tree).fault <;> rfl

theorem cyclomatic_of_ofTree {tree : Value} {ls : List Line}
    (h : ofTree .standard flags tree = .ok ls) :
    (ls.filterMap Line.contribution).map Contribution.cyclomatic =
      (visitedNodes .standard tree).map fun node => .int (branchCount flags node) := by
  rw [visitedNodes, report_eq_describeTree, List.map_map]
  exact map_contributions (fun o c hc => (Contribution.cyclomatic_of_standard hc).symm)
    (ofTree_eq_ok.mp h).2

/-- Under the standard grammar the branches of a trace are those that always count and,
for each gate that the settings open, the branches behind it: six numbers that depend on
the tree alone.  Traces of one tree under different settings differ in nothing but the
branches, and fail alike; opening gates takes no branch from any node. -/
theorem settings_gate_branches (tree : Value) :
    (∀ flags ls, ofTree .standard flags tree = .ok ls →
      ∃ counts : List Nat,
        (ls.filterMap Line.contribution).map Contribution.cyclomatic =
            counts.map (fun n => .int n) ∧
          total counts =
            (visitedNodes .standard tree).countP alwaysBranches +
              total (Gate.all.map fun gate =>
                if gate.isOn flags then (visitedNodes .standard tree).countP gate.branches
                else 0)) ∧
    (∀ flags flags', ofTree .standard flags' tree =
      (ofTree .standard flags tree).map (List.map (Line.withBranches flags'))) ∧
    ∀ flags flags', (∀ gate : Gate, gate.isOn flags = true → gate.isOn flags' = true) →
      ∀ ls ls', ofTree .standard flags tree = .ok ls → ofTree .standard flags' tree = .ok ls' →
        List.Forall₂
          (fun c c' : Contribution =>
            ∃ m n : Nat, c.cyclomatic = .int m ∧ c'.cyclomatic = .int n ∧ m ≤ n)
          (ls.filterMap Line.contribution) (ls'.filterMap Line.contribution) := by
  refine ⟨fun flags ls h => ?_, fun flags flags' => ofTree_standard flags flags' tree,
    fun flags flags' hopen ls ls' h h' => ?_⟩
  · refine ⟨(visitedNodes .standard tree).map (branchCount flags), ?_,
      Grammar.total_branchCount flags _⟩
    rw [cyclomatic_of_ofTree h, List.map_map]
    rfl
  · have hle : List.Forall₂ (fun v v' => ∃ m n : Nat, v = .int m ∧ v' = .int n ∧ m ≤ n)
        ((ls.filterMap Line.contribution).map Contribution.cyclomatic)
        ((ls'.filterMap Line.contribution).map Contribution.cyclomatic) := by
      rw [cyclomatic_of_ofTree h, cyclomatic_of_ofTree h', List.forall₂_map_left_iff,
        List.forall₂_map_right_iff]
      exact List.forall₂_same.mpr fun node _ =>
        ⟨_, _, rfl, rfl, Grammar.branchCount_le hopen node⟩
    rwa [List.forall₂_map_left_iff, List.forall₂_map_right_iff] at hle

end Trace

end Estree
