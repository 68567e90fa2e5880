import Estree.Proofs.Walk.Description

/-!
Sessions: calls of a consumer and walks with it, one after another.

The consumer goes on from the state it is left in, also by a step that failed.  So what
each call keeps is kept by every session, `session_keeps`; and a consumer that keeps more
than another one behaves like it all along, `session_of_projects`.
-/

namespace Estree

namespace Walk

variable {σ τ : Type}

inductive Step where
  | call (e : Event)
  /-- A tree is walked, by a grammar that may be another one each time, or by the standard
  one. -/
  | walk (given : Option Grammar) (tree : Value)

def Step.run (c : Consumer σ) (own : σ) : Step → Outcome σ
  | .call e => c own e
  | .walk given tree => Walk.under given tree c own

/-- The state after steps, whether they failed or not. -/
def session (c : Consumer σ) (own : σ) (steps : List Step) : σ :=
  steps.foldl (fun own step => (step.run c own).1) own

theorem Report.feed_fst (r : Report) (c : Consumer σ) (own : σ) :
    (r.feed c own).1 = (Walk.feed c own r.events).1 := by
  rw [feed]
  rcases Walk.feed c own r.events with ⟨next, _ | fault⟩ <;> rfl

section Keeps

variable {c : Consumer σ} {P : σ → Prop}

theorem feed_keeps (h : ∀ own e, P own → P (c own e).1) {own : σ} (start : P own)
    (es : List Event) : P (feed c own es).1 := by
  induction es generalizing own with
  | nil => exact start
  | cons e es ih =>
    have hnext := h own e start
    rw [feed_cons]
    rcases hc : c own e with ⟨next, _ | fault⟩
    · rw [hc] at hnext
      exact ih hnext
    · rw [hc] at hnext
      exact hnext

/-- What each call keeps, a step keeps: a walk comes down to calls. -/
theorem run_keeps (h : ∀ own e, P own → P (c own e).1) {own : σ} (start : P own) (step : Step) :
    P (step.run c own).1 := by
  cases step with
  | call e => exact h own e start
  | walk given tree =>
    show P (Walk.walk (.chosen given) tree c own).1
    rw [walk_eq_feed, Report.feed_fst]
    exact feed_keeps h start _

theorem session_keeps (h : ∀ own e, P own → P (c own e).1) {own : σ} (start : P own)
    (steps : List Step) : P (session c own steps) := by
  induction steps generalizing own with
  | nil => exact start
  | cons step steps ih => exact ih (run_keeps h start step)

end Keeps

/-! ### Consumers that keep more than others -/

/-- A consumer does as another one does with a part of its state. -/
def Consumer.Projects (d : Consumer τ) (f : τ → σ) (c : Consumer σ) : Prop :=
  ∀ own e, c (f own) e = (f (d own e).1, (d own e).2)

section Projects

variable {d : Consumer τ} {f : τ → σ} {c : Consumer σ}

theorem feed_of_projects (h : d.Projects f c) (own : τ) (es : List Event) :
    feed c (f own) es = (f (feed d own es).1, (feed d own es).2) := by
  induction es generalizing own with
  | nil => rfl
  | cons e es ih =>
    rw [feed_cons, feed_cons, h own e]
    rcases d own e with ⟨next, _ | fault⟩
    · exact ih next
    · rfl

theorem walk_of_projects (h : d.Projects f c) (g : Grammar) (tree : Value) (own : τ) :
    walk g tree c (f own) = (f (walk g tree d own).1, (walk g tree d own).2) := by
  rw [walk_eq_feed, walk_eq_feed, Report.feed, Report.feed, feed_of_projects h]
  rcases Walk.feed d own (describeTree g tree).events with ⟨next, _ | fault⟩ <;> rfl

theorem run_of_projects (h : d.Projects f c) (own : τ) (step : Step) :
    step.run c (f own) = (f (step.run d own).1, (step.run d own).2) := by
  cases step with
  | call e => exact h own e
  | walk given tree => exact walk_of_projects h (.chosen given) tree own

theorem session_of_projects (h : d.Projects f c) (own : τ) (steps : List Step) :
    session c (f own) steps = f (session d own steps) := by
  induction steps generalizing own with
  | nil => rfl
  | cons step steps ih =>
    show session c (step.run c (f own)).1 steps = _
    rw [run_of_projects h, ih]
    rfl

end Projects

/-- A consumer that also keeps the events of the calls that succeeded, in order. -/
def Consumer.answered (c : Consumer σ) : Consumer (σ × List Event) := fun (own, past) e =>
  match c own e with
  | (own, none) => ((own, past ++ [e]), none)
  | (own, some fault) => ((own, past), some fault)

theorem answered_projects (c : Consumer σ) : c.answered.Projects Prod.fst c := by
  rintro ⟨own, past⟩ e
  simp only [Consumer.answered]
  rcases c own e with ⟨next, _ | fault⟩ <;> rfl

/-- What a consumer keeps besides, it keeps of another one that does as it does. -/
theorem answered_of_projects {d : Consumer τ} {f : τ → σ} {c : Consumer σ} (h : d.Projects f c) :
    d.answered.Projects (fun s => (f s.1, s.2)) c.answered := by
  rintro ⟨own, past⟩ e
  simp only [Consumer.answered, h own e]
  rcases d own e with ⟨next, _ | fault⟩ <;> rfl

end Walk

end Estree
