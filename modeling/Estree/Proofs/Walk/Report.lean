import Estree.Walk

/-!
Reports: events in order, and the fault that comes after them, if one does.

A report can be handed to a consumer, which is called with its events up to the
first that it fails on.  `Report.feed_append` says that handing over one report
after another is handing over both, and `feed_logged` which calls are made.
-/

namespace Estree

namespace Walk

variable {σ : Type}

namespace Outcome

/-- What comes next, unless there was a fault. -/
def andThen (x : Outcome σ) (next : σ → Outcome σ) : Outcome σ :=
  match x with
  | (own, none) => next own
  | (own, some fault) => (own, some fault)

@[simp] theorem andThen_none (own : σ) (next : σ → Outcome σ) :
    andThen (own, none) next = next own := rfl

@[simp] theorem andThen_some (own : σ) (fault : Fault) (next : σ → Outcome σ) :
    andThen (own, some fault) next = (own, some fault) := rfl

theorem andThen_assoc (x : Outcome σ) (f h : σ → Outcome σ) :
    (x.andThen f).andThen h = x.andThen fun own => (f own).andThen h := by
  obtain ⟨own, fault⟩ := x
  cases fault <;> rfl

end Outcome

theorem feed_cons (c : Consumer σ) (own : σ) (e : Event) (es : List Event) :
    feed c own (e :: es) = Outcome.andThen (c own e) fun own => feed c own es := by
  simp only [feed]
  rcases c own e with ⟨own', _ | fault⟩ <;> rfl

theorem feed_append (c : Consumer σ) (own : σ) (as bs : List Event) :
    feed c own (as ++ bs) = Outcome.andThen (feed c own as) fun own => feed c own bs := by
  induction as generalizing own with
  | nil => rfl
  | cons e as ih =>
    rw [List.cons_append, feed_cons, feed_cons, Outcome.andThen_assoc]
    simp only [ih]

/-- The events that a consumer is called with: all, or those up to the first that
it fails on, with that one. -/
def taken (c : Consumer σ) : σ → List Event → List Event
  | _, [] => []
  | own, e :: rest =>
    match c own e with
    | (own, none) => e :: taken c own rest
    | (_, some _) => [e]

/-- Either every event is taken, or there is a first one that the consumer fails
on, and no event after it is taken. -/
theorem taken_cases (c : Consumer σ) (own : σ) (es : List Event) :
    ((feed c own es).2 = none ∧ taken c own es = es) ∨
      ∃ past e later before after fault,
        es = past ++ e :: later ∧ feed c own past = (before, none) ∧
          c before e = (after, some fault) ∧ taken c own es = past ++ [e] ∧
          feed c own es = (after, some fault) := by
  induction es generalizing own with
  | nil => exact .inl ⟨rfl, rfl⟩
  | cons e es ih =>
    rcases hc : c own e with ⟨next, _ | fault⟩
    · simp only [feed, taken, hc]
      rcases ih next with ⟨hf, ht⟩ | ⟨past, e', later, before, after, fault, he, hp, hc', ht, hf⟩
      · exact .inl ⟨hf, congrArg (e :: ·) ht⟩
      · refine .inr ⟨e :: past, e', later, before, after, fault, congrArg (e :: ·) he, ?_, hc',
          congrArg (e :: ·) ht, hf⟩
        simp only [feed, hc]
        exact hp
    · exact .inr ⟨[], e, es, own, next, fault, rfl, rfl, hc, by simp only [taken, hc]; rfl,
        by simp only [feed, hc]⟩

theorem taken_prefix (c : Consumer σ) (own : σ) (es : List Event) : taken c own es <+: es := by
  rcases taken_cases c own es with ⟨-, ht⟩ | ⟨past, e, later, _, _, _, rfl, _, _, ht, _⟩
  · simp only [ht, List.prefix_refl]
  · rw [ht]
    exact ⟨later, by rw [List.append_assoc]; rfl⟩

/-- A consumer that also keeps the calls made to it, the last one first. -/
def Consumer.logged (c : Consumer σ) : Consumer (σ × List Event) := fun (own, past) e =>
  (((c own e).1, e :: past), (c own e).2)

theorem feed_logged (c : Consumer σ) (own : σ) (past es : List Event) :
    feed c.logged (own, past) es =
      (((feed c own es).1, (taken c own es).reverse ++ past), (feed c own es).2) := by
  induction es generalizing own past with
  | nil => rfl
  | cons e es ih =>
    rcases hc : c own e with ⟨next, _ | fault⟩
    · simp only [feed, taken, Consumer.logged, hc, List.reverse_cons, List.append_assoc,
        List.singleton_append]
      exact ih next (e :: past)
    · simp only [feed, taken, Consumer.logged, hc]
      rfl

/-- A consumer that does not fail. -/
def Consumer.ofTotal (f : σ → Event → σ) : Consumer σ := fun own e => (f own e, none)

theorem feed_ofTotal (f : σ → Event → σ) (own : σ) (es : List Event) :
    feed (Consumer.ofTotal f) own es = (es.foldl f own, none) := by
  induction es generalizing own with
  | nil => rfl
  | cons e es ih => exact ih (f own e)

theorem taken_ofTotal (f : σ → Event → σ) (own : σ) (es : List Event) :
    taken (Consumer.ofTotal f) own es = es := by
  induction es generalizing own with
  | nil => rfl
  | cons e es ih => exact congrArg (e :: ·) (ih (f own e))

/-- The occurrences that come with a signal, in order. -/
def signalled (signal : Signal) (es : List Event) : List Occurrence :=
  (es.filter fun e => e.signal = signal).map Event.occurrence

@[simp] theorem signalled_nil (signal : Signal) : signalled signal [] = [] := rfl

theorem signalled_cons (signal : Signal) (e : Event) (es : List Event) :
    signalled signal (e :: es) =
      if e.signal = signal then e.occurrence :: signalled signal es else signalled signal es := by
  unfold signalled
  by_cases h : e.signal = signal <;> simp [h]

@[simp] theorem signalled_append (signal : Signal) (as bs : List Event) :
    signalled signal (as ++ bs) = signalled signal as ++ signalled signal bs := by
  simp [signalled]

theorem mem_signalled {signal : Signal} {o : Occurrence} {es : List Event} :
    o ∈ signalled signal es ↔ ⟨signal, o⟩ ∈ es := by
  induction es with
  | nil => simp
  | cons e es ih =>
    obtain ⟨signal', o'⟩ := e
    rw [signalled_cons]
    by_cases h : signal' = signal
    · simp [h, ih]
    · simp [h, ih, Ne.symm h]

/-! ### Reports -/

/-- The events of a walk, and the fault that cut it short, if one did. -/
@[ext] structure Report where
  events : List Event
  fault : Option Fault

namespace Report

def empty : Report := ⟨[], none⟩

/-- One report after another; nothing follows a fault. -/
def append (a b : Report) : Report :=
  match a.fault with
  | some _ => a
  | none => ⟨a.events ++ b.events, b.fault⟩

instance : Append Report := ⟨append⟩

def concat (rs : List Report) : Report := rs.foldr append empty

@[simp] theorem concat_nil : concat [] = empty := rfl

@[simp] theorem concat_cons (r : Report) (rs : List Report) : concat (r :: rs) = r ++ concat rs :=
  rfl

theorem append_of_some {a : Report} {fault : Fault} (h : a.fault = some fault) (b : Report) :
    a ++ b = a := by
  show a.append b = a
  simp only [append, h]

theorem append_of_none {a : Report} (h : a.fault = none) (b : Report) :
    a ++ b = ⟨a.events ++ b.events, b.fault⟩ := by
  show a.append b = _
  simp only [append, h]

theorem fault_append_eq_none {a b : Report} :
    (a ++ b).fault = none ↔ a.fault = none ∧ b.fault = none := by
  cases ha : a.fault with
  | none => simp [append_of_none ha]
  | some fault => simp [append_of_some ha, ha]

theorem empty_append (r : Report) : empty ++ r = r := append_of_none rfl r

theorem append_empty (r : Report) : r ++ empty = r := by
  cases h : r.fault with
  | some fault => exact append_of_some h empty
  | none =>
    rw [append_of_none h]
    exact Report.ext (List.append_nil _) h.symm

theorem append_assoc (a b c : Report) : a ++ b ++ c = a ++ (b ++ c) := by
  cases ha : a.fault with
  | some fault => rw [append_of_some ha, append_of_some ha, append_of_some ha]
  | none =>
    cases hb : b.fault with
    | some fault =>
      have hab : (a ++ b).fault = some fault := by rw [append_of_none ha]; exact hb
      rw [append_of_some hab, append_of_some hb]
    | none =>
      have hab : (a ++ b).fault = none := fault_append_eq_none.mpr ⟨ha, hb⟩
      rw [append_of_none hab, append_of_none ha, append_of_none hb, append_of_none ha]
      exact Report.ext (List.append_assoc _ _ _) rfl

/-- What holds of events one after another holds of reports. -/
theorem events_append {P : List Event → Prop} (h : ∀ as bs, P as → P bs → P (as ++ bs))
    {a b : Report} (ha : P a.events) (hb : P b.events) : P (a ++ b).events := by
  cases hf : a.fault with
  | some fault => rw [append_of_some hf]; exact ha
  | none => rw [append_of_none hf]; exact h _ _ ha hb

theorem events_prefix (a b : Report) : a.events <+: (a ++ b).events := by
  cases h : a.fault with
  | some fault => exact ⟨[], by rw [append_of_some h, List.append_nil]⟩
  | none => exact ⟨b.events, congrArg Report.events (append_of_none h b).symm⟩

theorem fault_concat_eq_none {rs : List Report} :
    (concat rs).fault = none ↔ ∀ r ∈ rs, r.fault = none := by
  induction rs with
  | nil => simp [empty]
  | cons r rs ih => simp [fault_append_eq_none, ih]

theorem events_concat {rs : List Report} (h : (concat rs).fault = none) :
    (concat rs).events = rs.flatMap events := by
  induction rs with
  | nil => rfl
  | cons r rs ih =>
    rw [concat_cons] at h ⊢
    obtain ⟨hr, hrs⟩ := fault_append_eq_none.mp h
    rw [append_of_none hr, List.flatMap_cons, ih hrs]

/-- Call a consumer with the events of a report.  The fault of the report counts
only if the consumer took every event. -/
def feed (r : Report) (c : Consumer σ) (own : σ) : Outcome σ :=
  Outcome.andThen (Walk.feed c own r.events) fun own => (own, r.fault)

@[simp] theorem feed_empty (c : Consumer σ) (own : σ) : empty.feed c own = (own, none) := rfl

@[simp] theorem feed_mk_none (es : List Event) (c : Consumer σ) (own : σ) :
    (⟨es, none⟩ : Report).feed c own = Walk.feed c own es := by
  simp only [feed]
  rcases Walk.feed c own es with ⟨own', _ | fault⟩ <;> rfl

theorem feed_append (a b : Report) (c : Consumer σ) (own : σ) :
    (a ++ b).feed c own = (a.feed c own).andThen fun own => b.feed c own := by
  cases ha : a.fault with
  | some fault =>
    rw [append_of_some ha]
    simp only [feed, ha, Outcome.andThen_assoc, Outcome.andThen_some]
  | none =>
    rw [append_of_none ha]
    simp only [feed, ha, Walk.feed_append, Outcome.andThen_assoc, Outcome.andThen_none]

end Report

end Walk

end Estree
