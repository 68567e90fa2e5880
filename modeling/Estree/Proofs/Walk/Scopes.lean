import Estree.Proofs.Walk.Order
import Mathlib.Data.List.Nodup
import Mathlib.Logic.Relation

/-!
Scopes are closed in pairs with their openings.

What is called closes the innermost open scope each time, for the node that opened
it, and a scope that opens is followed by the visit of its node.  When a walk ends
without a fault every scope that was opened has been closed: `scopes_pair`.

The tasks say only that a scope ends, not which.  The loop keeps as many of them as
there are scopes open, so there is always one to close.
-/

namespace Estree

namespace Walk

/-! ### Open scopes -/

/-- The open scopes after an event, the innermost first. -/
def Event.after (scopes : List Occurrence) (e : Event) : List Occurrence :=
  match e.signal with
  | .enter => e.occurrence :: scopes
  | .visit => scopes
  | .leave => scopes.tail

/-- The open scopes after some events, the innermost first. -/
def scopesAfter (scopes : List Occurrence) (es : List Event) : List Occurrence :=
  es.foldl Event.after scopes

/-- Each scope that closes is the innermost open one. -/
def Paired : List Occurrence → List Event → Prop
  | _, [] => True
  | scopes, e :: es =>
    (e.signal = .leave → scopes.head? = some e.occurrence) ∧ Paired (e.after scopes) es

theorem scopesAfter_append (scopes : List Occurrence) (as bs : List Event) :
    scopesAfter scopes (as ++ bs) = scopesAfter (scopesAfter scopes as) bs := List.foldl_append

theorem paired_append {scopes : List Occurrence} {as bs : List Event} :
    Paired scopes (as ++ bs) ↔ Paired scopes as ∧ Paired (scopesAfter scopes as) bs := by
  induction as generalizing scopes with
  | nil => simp [Paired, scopesAfter]
  | cons e as ih =>
    simp only [List.cons_append, Paired, ih, and_assoc]
    rfl

theorem head?_of_paired {scopes : List Occurrence} {past later : List Event} {o : Occurrence}
    (h : Paired scopes (past ++ ⟨.leave, o⟩ :: later)) :
    (scopesAfter scopes past).head? = some o :=
  (paired_append.mp h).2.1 rfl

/-- The scopes that were open before or opened since are those that closed or still
are open. -/
theorem perm_of_paired {scopes : List Occurrence} {es : List Event} (h : Paired scopes es) :
    (scopes ++ signalled .enter es).Perm (signalled .leave es ++ scopesAfter scopes es) := by
  induction es generalizing scopes with
  | nil => simp [scopesAfter]
  | cons e es ih =>
    obtain ⟨signal, o⟩ := e
    have hes := ih h.2
    simp only [signalled_cons]
    cases signal with
    | enter => exact List.perm_middle.trans hes
    | visit => exact hes
    | leave =>
      obtain ⟨rest, rfl⟩ := List.head?_eq_some_iff.mp (h.1 rfl)
      exact hes.cons o

/-- There are no more closings than openings. -/
theorem leaves_le_enters {es : List Event} (h : Paired [] es) :
    (signalled .leave es).length ≤ (signalled .enter es).length := by
  have hl := (perm_of_paired h).length_eq
  rw [List.nil_append, List.length_append] at hl
  omega

/-! ### Every report pairs its scopes -/

/-- A report pairs its scopes, and leads from some open scopes to others if nothing
fails. -/
def Report.Pairs (r : Report) (before after : List Occurrence) : Prop :=
  Paired before r.events ∧ (r.fault = none → scopesAfter before r.events = after)

theorem Report.Pairs.append {a b : Report} {before between after : List Occurrence}
    (ha : a.Pairs before between) (hb : b.Pairs between after) : (a ++ b).Pairs before after := by
  cases h : a.fault with
  | some fault =>
    rw [Report.append_of_some h]
    exact ⟨ha.1, fun hn => by rw [h] at hn; cases hn⟩
  | none =>
    have hmid := ha.2 h
    rw [Report.append_of_none h]
    refine ⟨paired_append.mpr ⟨ha.1, hmid.symm ▸ hb.1⟩, fun hn => ?_⟩
    rw [scopesAfter_append, hmid, hb.2 hn]

/-- The open scopes are afterwards as they were. -/
def Report.Balanced (r : Report) : Prop := ∀ scopes, r.Pairs scopes scopes

theorem Report.Balanced.empty : Report.empty.Balanced := fun _ => ⟨trivial, fun _ => rfl⟩

theorem Report.Balanced.append {a b : Report} (ha : a.Balanced) (hb : b.Balanced) :
    (a ++ b).Balanced := fun scopes => (ha scopes).append (hb scopes)

theorem pairs_entering (opens : Bool) (o : Occurrence) (fault : Option Fault)
    (scopes : List Occurrence) :
    (⟨entering opens o, fault⟩ : Report).Pairs scopes (if opens then o :: scopes else scopes) := by
  cases opens <;> simp [Report.Pairs, entering, Paired, scopesAfter, Event.after]

theorem pairs_leaving (opens : Bool) (o : Occurrence) (scopes : List Occurrence) :
    (⟨leaving opens o, none⟩ : Report).Pairs (if opens then o :: scopes else scopes) scopes := by
  cases opens <;> simp [Report.Pairs, leaving, Paired, scopesAfter, Event.after]

theorem balanced_describe (g : Grammar) (o : Occurrence) : (describe g o).Balanced := by
  induction o using visit_induction g with
  | skip o rule =>
    rw [describe_skip rule]
    exact .empty
  | scopeFault o r fault rule scope =>
    intro scopes
    rw [describe_scopeFault rule scope]
    exact ⟨trivial, nofun⟩
  | childFault o r opens fault rule scope found =>
    intro scopes
    rw [describe_childFault rule scope found]
    exact ⟨(pairs_entering opens o (some fault) scopes).1, nofun⟩
  | descend o r opens os rule scope found ih =>
    intro scopes
    have hos : (describeAll g os).Balanced := describeAll_of .empty (fun _ _ => .append) ih
    rw [describe_descend rule scope found]
    exact (pairs_entering opens o none scopes).append
      ((hos _).append (pairs_leaving opens o scopes))

theorem balanced_describeTree (g : Grammar) (tree : Value) : (describeTree g tree).Balanced :=
  describeAll_of .empty (fun _ _ => .append) fun o _ => balanced_describe g o

/-! ### Openings and visits -/

/-- What holds of the events at a node, and of events one after another, holds of all
that is reported. -/
theorem describe_events {g : Grammar} {P : List Event → Prop} (nil : P [])
    (append : ∀ as bs, P as → P bs → P (as ++ bs))
    (entered : ∀ o, P (entering (opens g o.node) o)) (left : ∀ o, P (leaving (opens g o.node) o))
    (o : Occurrence) : P (describe g o).events := by
  induction o using visit_induction g with
  | skip o rule => rw [describe_skip rule]; exact nil
  | scopeFault o r fault rule scope => rw [describe_scopeFault rule scope]; exact nil
  | childFault o r opens fault rule scope found =>
    rw [describe_childFault rule scope found, ← opens_of_ok rule scope]
    exact entered o
  | descend o r opens os rule scope found ih =>
    rw [describe_descend rule scope found, ← opens_of_ok rule scope]
    have hos := describeAll_of (P := fun r => P r.events) nil
      (fun _ _ => Report.events_append append) ih
    exact Report.events_append append (entered o) (Report.events_append append hos (left o))

theorem describeTree_events {g : Grammar} {P : List Event → Prop} (nil : P [])
    (append : ∀ as bs, P as → P bs → P (as ++ bs))
    (entered : ∀ o, P (entering (opens g o.node) o)) (left : ∀ o, P (leaving (opens g o.node) o))
    (tree : Value) : P (describeTree g tree).events :=
  describeAll_of (P := fun r => P r.events) nil (fun _ _ => Report.events_append append)
    fun o _ => describe_events nil append entered left o

/-- A scope that opens is followed by the visit of its node. -/
def Followed : List Event → Prop
  | [] => True
  | e :: es => (e.signal = .enter → es.head? = some ⟨.visit, e.occurrence⟩) ∧ Followed es

theorem Followed.append {as bs : List Event} (ha : Followed as) (hb : Followed bs) :
    Followed (as ++ bs) := by
  induction as with
  | nil => exact hb
  | cons e as ih =>
    refine ⟨fun he => ?_, ih ha.2⟩
    show (as ++ bs).head? = _
    rw [List.head?_append, ha.1 he, Option.some_or]

theorem Followed.of_append {as bs : List Event} (h : Followed (as ++ bs)) : Followed bs := by
  induction as with
  | nil => exact h
  | cons e as ih => exact ih h.2

theorem followed_describeTree (g : Grammar) (tree : Value) :
    Followed (describeTree g tree).events := by
  refine describeTree_events trivial (fun _ _ => Followed.append) (fun o => ?_) (fun o => ?_) tree
  · cases opens g o.node <;> simp [entering, Followed]
  · cases opens g o.node <;> simp [leaving, Followed]

/-- The scopes that open are those of the visited nodes that open one. -/
theorem enters_eq_filter (g : Grammar) (tree : Value) :
    signalled .enter (describeTree g tree).events =
      (signalled .visit (describeTree g tree).events).filter fun o => opens g o.node := by
  refine describeTree_events (P := fun es => signalled .enter es =
    (signalled .visit es).filter fun o => opens g o.node) rfl (fun as bs ha hb => ?_)
    (fun o => ?_) (fun o => ?_) tree
  · rw [signalled_append, signalled_append, List.filter_append, ha, hb]
  · cases h : opens g o.node <;> simp [entering, signalled, h]
  · cases h : opens g o.node <;> simp [leaving, signalled]

/-! ### The loop -/

namespace Task

def isLeave : Task → Bool
  | .visit _ => false
  | .leave => true

end Task

namespace State

variable {σ : Type} {g : Grammar} {c : Consumer σ}

/-- As many ends of scopes are to come as there are scopes open. -/
def Lockstep (s : State σ) : Prop := s.pending.countP Task.isLeave = s.scopes.size

/-- A state that some turns lead to from another. -/
def Leads (g : Grammar) (c : Consumer σ) : State σ → State σ → Prop :=
  Relation.ReflTransGen fun s t => s.turn g c = .moved t

theorem countP_pile (pending : Array Task) (os : List Occurrence) :
    (pile pending os).countP Task.isLeave = pending.countP Task.isLeave := by
  have h : ((os.map Task.visit).reverse).countP Task.isLeave = 0 := by
    simp [List.countP_eq_zero, Task.isLeave]
  rw [pile, ← Array.countP_toList, Array.toList_appendList, List.countP_append, h,
    Array.countP_toList, Nat.add_zero]

theorem lockstep_start (tree : Value) (own : σ) : (start tree own).Lockstep := by
  rw [Lockstep, start, countP_pile]
  rfl

theorem lockstep_turn {s t : State σ} (hs : s.Lockstep) (h : s.turn g c = .moved t) :
    t.Lockstep := by
  cases turn_eq_moved h with
  | skip rule => simpa [Lockstep, Array.countP_push, Task.isLeave] using hs
  | descend rule scope found called =>
    rename_i opens os
    simp only [Lockstep, countP_pile, Array.countP_push, Task.isLeave] at hs ⊢
    cases opens <;> simpa [Array.countP_push, Task.isLeave] using hs
  | close called => simpa [Lockstep, Array.countP_push, Task.isLeave] using hs

theorem lockstep_of_leads {s t : State σ} (hs : s.Lockstep) (h : Leads g c s t) : t.Lockstep := by
  induction h with
  | refl => exact hs
  | tail _ hturn ih => exact lockstep_turn ih hturn

/-- When a scope has to be closed there is one. -/
theorem scopes_ne_empty {s : State σ} (hs : s.Lockstep) (h : s.pending.back? = some .leave) :
    s.scopes ≠ #[] := by
  obtain ⟨pending, hp⟩ := Array.back?_eq_some_iff.mp h
  intro he
  rw [Lockstep, he, hp, Array.countP_push] at hs
  simp [Task.isLeave] at hs

end State

/-! ### Whole walks -/

variable {σ : Type}

/-- A call that opens a scope is followed by one that visits its node, unless the
consumer failed on it. -/
theorem visit_follows {g : Grammar} {tree : Value} {c : Consumer σ} {own : σ} {past later}
    {o : Occurrence} (h : calls g tree c own = past ++ ⟨.enter, o⟩ :: later)
    (hc : (c (feed c own past).1 ⟨.enter, o⟩).2 = none) : later.head? = some ⟨.visit, o⟩ := by
  have hall := followed_describeTree g tree
  rcases calls_cases g tree c own with
    ⟨-, he, -⟩ | ⟨past', e, later', before, after, fault, he, hp, hfail, hcalls, -⟩
  · rw [← he, h] at hall
    exact hall.of_append.1 rfl
  · -- The failing call is the last one: either it is the opening, or it comes later.
    rw [hcalls] at h
    rcases List.eq_nil_or_concat later with rfl | ⟨more, last, rfl⟩
    · obtain ⟨rfl, he'⟩ := List.append_inj' h rfl
      cases he'
      rw [hp, hfail] at hc
      cases hc
    · rw [List.concat_eq_append, ← List.cons_append, ← List.append_assoc] at h
      obtain ⟨rfl, he'⟩ := List.append_inj' h rfl
      cases he'
      rw [he, List.append_assoc] at hall
      have hnext : (more ++ e :: later').head? = some ⟨.visit, o⟩ := hall.of_append.1 rfl
      rw [List.head?_append] at hnext
      rw [List.concat_eq_append, List.head?_append]
      exact hnext

/-- Whichever calls fail, in what is called up to then each closing is of the innermost
open scope, for the occurrence that opened it, there are never more closings than
openings, and the visit of a node follows the opening of its scope.  If nothing fails
no scope is open at the end: each visited node that opens a scope has opened one and
closed it, and no node was visited twice.  The loop never has to close a scope when
none is open. -/
theorem scopes_pair (g : Grammar) (tree : Value) (c : Consumer σ) (own : σ) :
    (∀ past o later, calls g tree c own = past ++ ⟨.leave, o⟩ :: later →
      (scopesAfter [] past).head? = some o) ∧
    (∀ past, past <+: calls g tree c own →
      (signalled .leave past).length ≤ (signalled .enter past).length) ∧
    (∀ past o later, calls g tree c own = past ++ ⟨.enter, o⟩ :: later →
      (c (feed c own past).1 ⟨.enter, o⟩).2 = none → later.head? = some ⟨.visit, o⟩) ∧
    ((walk g tree c own).2 = none →
      scopesAfter [] (calls g tree c own) = [] ∧
      signalled .enter (calls g tree c own) =
        (signalled .visit (calls g tree c own)).filter (fun o => opens g o.node) ∧
      (signalled .leave (calls g tree c own)).Perm (signalled .enter (calls g tree c own)) ∧
      ((signalled .visit (calls g tree c own)).map Occurrence.place).Nodup) ∧
    ∀ s, State.Leads g c (start tree own) s → s.pending.back? = some .leave → s.scopes ≠ #[] := by
  have hpaired : Paired [] (calls g tree c own) := by
    obtain ⟨rest, hrest⟩ := calls_prefix g tree c own
    have h := (balanced_describeTree g tree []).1
    rw [← hrest] at h
    exact (paired_append.mp h).1
  refine ⟨fun past o later h => head?_of_paired (h ▸ hpaired), ?_,
    fun past o later => visit_follows, fun h => ?_,
    fun s hs => State.scopes_ne_empty (State.lockstep_of_leads (State.lockstep_start tree own) hs)⟩
  · rintro past ⟨rest, hrest⟩
    rw [← hrest] at hpaired
    exact leaves_le_enters (paired_append.mp hpaired).1
  · obtain ⟨hcalls, hf⟩ := calls_of_walk_eq_none h
    have hend := (balanced_describeTree g tree []).2 hf
    have hperm := perm_of_paired hpaired
    rw [hcalls] at hperm ⊢
    rw [hend, List.nil_append, List.append_nil] at hperm
    refine ⟨hend, enters_eq_filter g tree, hperm.symm, ?_⟩
    rw [signalled_describeTree hf]
    have hpaths := nodup_of_sorted (List.pairwise_map.mpr (visitedTree_pairwise hf))
    refine List.Nodup.of_map List.reverse ?_
    rw [List.map_map]
    exact hpaths

end Walk

end Estree
