import Estree.Proofs.Walk.Description

/-!
The calls that a walk makes to its consumer.

There is one report for a tree, which no consumer has a part in.  A consumer that
never fails is called with every event of it, as `calls_eq_describeTree` says.  One
that fails ends the walk with the fault it failed with, and `walk_stops_at_failure`
says after which call.
-/

namespace Estree

namespace Walk

variable {σ : Type}

/-- The calls that a walk makes, in order.  One that the consumer fails on is made. -/
def calls (g : Grammar) (tree : Value) (c : Consumer σ) (own : σ) : List Event :=
  (walk g tree c.logged (own, [])).1.2.reverse

/-- What is called when the consumer takes every event, and how the walk ends then. -/
def report (g : Grammar) (tree : Value) : Report :=
  let walked := walk g tree (Consumer.ofTotal fun past e => e :: past) []
  ⟨walked.1.reverse, walked.2⟩

theorem report_eq_describeTree (g : Grammar) (tree : Value) :
    report g tree = describeTree g tree := by
  have hf : ∀ es past : List Event,
      es.foldl (fun past e => e :: past) past = es.reverse ++ past := by
    intro es past
    simp
  simp only [report, walk_eq_feed, Report.feed, feed_ofTotal, hf, Outcome.andThen_none,
    List.append_nil, List.reverse_reverse]

theorem calls_eq_taken (g : Grammar) (tree : Value) (c : Consumer σ) (own : σ) :
    calls g tree c own = taken c own (describeTree g tree).events := by
  rw [calls, walk_eq_feed, Report.feed, feed_logged]
  rcases feed c own (describeTree g tree).events with ⟨own', _ | fault⟩ <;> simp

/-- Keeping the calls changes nothing in a walk. -/
theorem walk_logged (g : Grammar) (tree : Value) (c : Consumer σ) (own : σ) :
    walk g tree c.logged (own, []) =
      (((walk g tree c own).1, (calls g tree c own).reverse), (walk g tree c own).2) := by
  rw [calls_eq_taken, walk_eq_feed, walk_eq_feed, Report.feed, Report.feed, feed_logged]
  rcases feed c own (describeTree g tree).events with ⟨own', _ | fault⟩ <;> simp

theorem calls_prefix (g : Grammar) (tree : Value) (c : Consumer σ) (own : σ) :
    calls g tree c own <+: (describeTree g tree).events := by
  rw [calls_eq_taken]
  exact taken_prefix c own _

/-- The two ways that a walk can go with a consumer. -/
theorem calls_cases (g : Grammar) (tree : Value) (c : Consumer σ) (own : σ) :
    ((feed c own (describeTree g tree).events).2 = none ∧
        calls g tree c own = (describeTree g tree).events ∧
        (walk g tree c own).2 = (describeTree g tree).fault) ∨
      ∃ past e later before after fault,
        (describeTree g tree).events = past ++ e :: later ∧ feed c own past = (before, none) ∧
          c before e = (after, some fault) ∧ calls g tree c own = past ++ [e] ∧
          walk g tree c own = (after, some fault) := by
  rw [calls_eq_taken, walk_eq_feed, Report.feed]
  rcases taken_cases c own (describeTree g tree).events with
    ⟨hf, ht⟩ | ⟨past, e, later, before, after, fault, he, hp, hc, ht, hf⟩
  · refine .inl ⟨hf, ht, ?_⟩
    rcases h : feed c own (describeTree g tree).events with ⟨own', _ | fault⟩
    · rfl
    · rw [h] at hf; cases hf
  · exact .inr ⟨past, e, later, before, after, fault, he, hp, hc, ht, by rw [hf]; rfl⟩

/-- A walk that ends without a fault has called the consumer with everything. -/
theorem calls_of_walk_eq_none {g : Grammar} {tree : Value} {c : Consumer σ} {own : σ}
    (h : (walk g tree c own).2 = none) :
    calls g tree c own = (describeTree g tree).events ∧ (describeTree g tree).fault = none := by
  rcases calls_cases g tree c own with ⟨-, hc, hw⟩ | ⟨_, _, _, _, _, _, -, -, -, -, hw⟩
  · exact ⟨hc, hw.symm.trans h⟩
  · rw [hw] at h; cases h

theorem calls_ofTotal (g : Grammar) (tree : Value) (f : σ → Event → σ) (own : σ) :
    calls g tree (Consumer.ofTotal f) own = (describeTree g tree).events := by
  rw [calls_eq_taken, taken_ofTotal]

theorem walk_ofTotal (g : Grammar) (tree : Value) (f : σ → Event → σ) (own : σ) :
    walk g tree (Consumer.ofTotal f) own =
      ((describeTree g tree).events.foldl f own, (describeTree g tree).fault) := by
  rw [walk_eq_feed, Report.feed, feed_ofTotal, Outcome.andThen_none]

/-- A consumer that never fails is called with what the description reports, in that
order, and the walk ends as the description does. -/
theorem calls_eq_describeTree (g : Grammar) (tree : Value) (f : σ → Event → σ) (own : σ) :
    calls g tree (Consumer.ofTotal f) own = (describeTree g tree).events ∧
      walk g tree (Consumer.ofTotal f) own =
        ((describeTree g tree).events.foldl f own, (describeTree g tree).fault) :=
  ⟨calls_ofTotal g tree f own, walk_ofTotal g tree f own⟩

/-! ### Failing consumers -/

/-- A consumer that fails on the call with a signal that has `n` such calls before it.
Its state is the number of them so far. -/
def Consumer.failingAt (signal : Signal) (n : Nat) (fault : Fault) : Consumer Nat := fun count e =>
  if e.signal = signal then (count + 1, if count = n then some fault else none)
  else (count, none)

/-- Such a consumer counts, and goes on only as long as the count is no more than `n`. -/
theorem feed_failingAt {signal : Signal} {n : Nat} {fault : Fault} {es : List Event}
    {count before : Nat} (hn : count ≤ n)
    (h : feed (Consumer.failingAt signal n fault) count es = (before, none)) :
    before = count + (signalled signal es).length ∧ before ≤ n := by
  induction es generalizing count with
  | nil => cases h; exact ⟨rfl, hn⟩
  | cons e es ih =>
    by_cases he : e.signal = signal
    · by_cases hc : count = n
      · simp [feed, Consumer.failingAt, he, hc] at h
      · simp only [feed, Consumer.failingAt, he, hc, if_true, if_false] at h
        obtain ⟨hb, hle⟩ := ih (by omega) h
        refine ⟨?_, hle⟩
        rw [hb, signalled_cons, if_pos he, List.length_cons]
        omega
    · simp only [feed, Consumer.failingAt, he, if_false] at h
      obtain ⟨hb, hle⟩ := ih hn h
      exact ⟨by rw [hb, signalled_cons, if_neg he], hle⟩

theorem eq_of_failingAt {signal : Signal} {n count after : Nat} {fault raised : Fault} {e : Event}
    (h : Consumer.failingAt signal n fault count e = (after, some raised)) :
    e.signal = signal ∧ count = n ∧ raised = fault := by
  unfold Consumer.failingAt at h
  split at h
  · rename_i he
    split at h
    · rename_i hc; cases h; exact ⟨he, hc, rfl⟩
    · cases h
  · cases h

/-- The events of a walk come from the tree alone.  A consumer takes them up to the
first that it fails on; the walk makes no call after that one and ends with the fault
as it is, and a fault of the rules counts only if the consumer failed on nothing.  So
if the call with a signal that has `n` of them before it fails, the calls made are
those of a walk without failures up to that one. -/
theorem walk_stops_at_failure (g : Grammar) (tree : Value) (c : Consumer σ) (own : σ) :
    walk g tree c own = (report g tree).feed c own ∧
      (((feed c own (report g tree).events).2 = none ∧
          calls g tree c own = (report g tree).events ∧
          (walk g tree c own).2 = (report g tree).fault) ∨
        ∃ past e later before after fault,
          (report g tree).events = past ++ e :: later ∧ feed c own past = (before, none) ∧
            c before e = (after, some fault) ∧ calls g tree c own = past ++ [e] ∧
            walk g tree c own = (after, some fault)) ∧
      ∀ signal n fault,
        ((signalled signal (report g tree).events).length ≤ n ∧
          calls g tree (Consumer.failingAt signal n fault) 0 = (report g tree).events ∧
          (walk g tree (Consumer.failingAt signal n fault) 0).2 = (report g tree).fault) ∨
        ∃ past e later,
          (report g tree).events = past ++ e :: later ∧ e.signal = signal ∧
            (signalled signal past).length = n ∧
            calls g tree (Consumer.failingAt signal n fault) 0 = past ++ [e] ∧
            (walk g tree (Consumer.failingAt signal n fault) 0).2 = some fault := by
  rw [report_eq_describeTree]
  refine ⟨walk_eq_feed g tree c own, calls_cases g tree c own, fun signal n fault => ?_⟩
  rcases calls_cases g tree (Consumer.failingAt signal n fault) 0 with
    ⟨hf, hc, hw⟩ | ⟨past, e, later, before, after, raised, he, hp, hfail, hc, hw⟩
  · have h := feed_failingAt (Nat.zero_le n) (Prod.ext rfl hf)
    exact .inl ⟨by omega, hc, hw⟩
  · obtain ⟨hs, hn, rfl⟩ := eq_of_failingAt hfail
    have h := feed_failingAt (Nat.zero_le n) hp
    exact .inr ⟨past, e, later, he, hs, by omega, hc, by rw [hw]⟩

end Walk

end Estree
