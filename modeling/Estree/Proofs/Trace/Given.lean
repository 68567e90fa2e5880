import Estree.Proofs.Walk.Session
import Estree.Trace

/-!
Traces and dependencies by a grammar that is given or not.

A recorder and a collector choose a grammar when they are made, and the walk that they are
handed to chooses again.  All choose alike, so what is given comes down to one grammar:
`Trace.under_eq` and `Dependencies.under_eq`.
-/

namespace Estree

open Walk

namespace Trace

/-- A recorder does with its trace what is done with a trace by its grammar. -/
theorem record_projects (g : Grammar) (flags : Flags) :
    (record g flags).Projects (Recorder.mk flags g) Recorder.record := fun _ _ => rfl

theorem under_eq (given : Option Grammar) (flags : Flags) (tree : Value) :
    under given flags tree = ofTree (.chosen given) flags tree := by
  have hwalk := walk_of_projects (record_projects (.chosen given) flags) (.chosen given) tree empty
  rw [under, Walk.under, Recorder.new, hwalk, ofTree, walk]
  rcases Walk.walk (.chosen given) tree (record (.chosen given) flags) empty with
    ⟨t, _ | fault⟩ <;> rfl

end Trace

namespace Dependencies

/-- A collector does with its records what is done with records by its grammar. -/
theorem collect_projects (g : Grammar) :
    (collect g).Projects (Collector.mk g) Collector.collect := fun _ _ => rfl

theorem under_eq (given : Option Grammar) (flags : Flags) (tree : Value) :
    under given flags tree = ofTree (.chosen given) tree := by
  have hwalk := walk_of_projects (collect_projects (.chosen given)) (.chosen given) tree empty
  rw [under, Walk.under, Collector.new, hwalk, ofTree, walk]
  rcases Walk.walk (.chosen given) tree (collect (.chosen given)) empty with
    ⟨d, _ | fault⟩ <;> rfl

end Dependencies

end Estree
