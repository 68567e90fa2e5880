import Estree.Log

/-!
What computations come to, and what they note on the way.

Most only add to the notes: they come to the same end with the same lines whatever was
noted before, `Ends`.  Such computations can be put one after another.
-/

namespace Estree

namespace Logged

variable {ε α β : Type}

/-- A computation ends so and adds these lines, whatever was noted before it. -/
def Ends (x : Logged ε α) (end' : Except ε α) (lines : List Text) : Prop :=
  ∀ notes, x.run.run notes = (end', notes ++ lines)

theorem ends_pure (a : α) : (pure a : Logged ε α).Ends (.ok a) [] := fun notes =>
  congrArg (Prod.mk (Except.ok a)) (List.append_nil notes).symm

theorem ends_throw (e : ε) : (throw e : Logged ε α).Ends (.error e) [] := fun notes =>
  congrArg (Prod.mk (Except.error e)) (List.append_nil notes).symm

theorem ends_note (line : Text) : (note line : Logged ε Unit).Ends (.ok ()) [line] :=
  fun _ => rfl

theorem ends_lift (x : Except ε α) : (lift x).Ends x [] := fun notes =>
  congrArg (Prod.mk x) (List.append_nil notes).symm

section Bind

variable {x : Logged ε α} {f : α → Logged ε β}

theorem Ends.bind {a : α} {end' : Except ε β} {first second : List Text}
    (hx : x.Ends (.ok a) first) (hf : (f a).Ends end' second) :
    (x >>= f).Ends end' (first ++ second) := by
  intro notes
  have hx' : StateT.run (ExceptT.run x) notes = (Except.ok a, notes ++ first) := hx notes
  rw [ExceptT.run_bind, StateT.run_bind, hx', ← List.append_assoc]
  exact hf (notes ++ first)

theorem Ends.bind_error {e : ε} {lines : List Text} (hx : x.Ends (.error e) lines) :
    (x >>= f).Ends (.error e) lines := by
  intro notes
  have hx' : StateT.run (ExceptT.run x) notes = (Except.error e, notes ++ lines) := hx notes
  rw [ExceptT.run_bind, StateT.run_bind, hx']
  rfl

end Bind

theorem Ends.collect {x : Logged ε α} {end' : Except ε α} {lines : List Text}
    (h : x.Ends end' lines) : x.collect = (end', lines) := h []

/-- A computation comes to one end with the same lines, whatever was noted before it. -/
def Settled (x : Logged ε α) : Prop := ∃ lines, x.Ends x.collect.1 lines

theorem Ends.settled {x : Logged ε α} {end' : Except ε α} {lines : List Text}
    (h : x.Ends end' lines) : x.Settled := by
  refine ⟨lines, ?_⟩
  rw [h.collect]
  exact h

theorem settled_lift (x : Except ε α) : (lift x).Settled := (ends_lift x).settled

theorem collect_lift (x : Except ε α) : (lift x).collect.1 = x := by
  rw [(ends_lift x).collect]

/-- Of computations one after another each ends as it does by itself. -/
theorem Settled.bind {x : Logged ε α} {f : α → Logged ε β} (hx : x.Settled)
    (hf : ∀ a, (f a).Settled) :
    (x >>= f).Settled ∧ (x >>= f).collect.1 = x.collect.1.bind fun a => (f a).collect.1 := by
  obtain ⟨first, hx⟩ := hx
  cases hend : x.collect.1 with
  | error e =>
    rw [hend] at hx
    exact ⟨hx.bind_error.settled, by rw [hx.bind_error.collect]; rfl⟩
  | ok a =>
    rw [hend] at hx
    obtain ⟨second, hf⟩ := hf a
    exact ⟨(hx.bind hf).settled, by rw [(hx.bind hf).collect]; rfl⟩

/-- A computation comes to a value, whatever was noted before it. -/
def Yields (x : Logged ε α) (a : α) : Prop := ∀ notes, ∃ more, x.run.run notes = (.ok a, more)

theorem Ends.yields {x : Logged ε α} {a : α} {lines : List Text} (h : x.Ends (.ok a) lines) :
    x.Yields a := fun notes => ⟨notes ++ lines, h notes⟩

theorem Yields.collect {x : Logged ε α} {a : α} (h : x.Yields a) : x.collect.1 = .ok a := by
  obtain ⟨more, hx⟩ := h []
  rw [Logged.collect, hx]

end Logged

end Estree
