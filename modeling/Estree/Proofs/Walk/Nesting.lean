import Estree.Proofs.Walk.Scopes

/-!
Where the events of a walk stand in the tree.

What is reported of a node is reported of occurrences below it, `path_prefix_of_mem`,
and what is reported of two nodes in different slots does not mix.  The scopes that are
open at an event are those of nodes above it: `nested_describeTree`.
-/

namespace Estree

namespace Walk

variable {g : Grammar}

/-! ### Below a node -/

theorem occurrence_of_mem_entering {opens : Bool} {o : Occurrence} {e : Event}
    (h : e ∈ entering opens o) : e.occurrence = o := by
  cases opens
  · obtain rfl := List.mem_singleton.mp h
    rfl
  · rcases List.mem_pair.mp h with rfl | rfl <;> rfl

theorem occurrence_of_mem_leaving {opens : Bool} {o : Occurrence} {e : Event}
    (h : e ∈ leaving opens o) : e.occurrence = o := by
  cases opens
  · cases h
  · obtain rfl := List.mem_singleton.mp h
    rfl

theorem visit_mem_entering (opens : Bool) (o : Occurrence) : ⟨.visit, o⟩ ∈ entering opens o := by
  cases opens <;> simp [entering]

theorem path_prefix_of_mem_children {o c : Occurrence} {r : Rule} {os : List Occurrence}
    (found : o.children r = .ok os) (hc : c ∈ os) : o.path <+: c.path := by
  obtain ⟨cs, -, rfl⟩ := Occurrence.children_eq_ok.mp found
  obtain ⟨d, -, rfl⟩ := List.mem_map.mp hc
  rw [Occurrence.path_child]
  exact List.prefix_append _ _

/-- Whatever is reported of a node stands at or below it. -/
theorem path_prefix_of_mem (o : Occurrence) (h : (describe g o).fault = none) :
    ∀ e ∈ (describe g o).events, o.path <+: e.occurrence.path := by
  induction o, h using complete_induction g with
  | skip o h rule hd =>
    intro e he
    rw [hd] at he
    cases he
  | descend o h r opens os rule scope found hd hos ih =>
    intro e he
    rw [hd, List.mem_append, List.mem_append, List.mem_flatMap] at he
    rcases he with (he | ⟨c, hc, he⟩) | he
    · exact occurrence_of_mem_entering he ▸ List.prefix_rfl
    · exact (path_prefix_of_mem_children found hc).trans (ih c hc e he)
    · exact occurrence_of_mem_leaving he ▸ List.prefix_rfl

/-- Whatever is reported is reported of a node that is visited. -/
theorem mem_visited_of_mem (o : Occurrence) (h : (describe g o).fault = none) :
    ∀ e ∈ (describe g o).events, e.occurrence ∈ visited g o := by
  induction o, h using complete_induction g with
  | skip o h rule hd =>
    intro e he
    rw [hd] at he
    cases he
  | descend o h r opens os rule scope found hd hos ih =>
    intro e he
    rw [visited_of_events hd, List.mem_cons, List.mem_flatMap]
    rw [hd, List.mem_append, List.mem_append, List.mem_flatMap] at he
    rcases he with (he | ⟨c, hc, he⟩) | he
    · exact .inl (occurrence_of_mem_entering he)
    · exact .inr ⟨c, hc, ih c hc e he⟩
    · exact .inl (occurrence_of_mem_leaving he)

theorem occurrence_mem_visited {tree : Value} (h : (describeTree g tree).fault = none) {e : Event}
    (he : e ∈ (describeTree g tree).events) :
    e.occurrence ∈ signalled .visit (describeTree g tree).events := by
  rw [signalled_describeTree h]
  rw [events_describeTree h] at he
  obtain ⟨o, ho, he⟩ := List.mem_flatMap.mp he
  exact List.mem_flatMap.mpr
    ⟨o, ho, mem_visited_of_mem o (describeTree_fault_eq_none.mp h o ho) e he⟩

/-- Two children of a node above the same path are one. -/
theorem child_unique {o : Occurrence} {names : List Entry} {cs : List (Slot × Value)}
    (found : o.node.children names = .ok cs) {c d : Occurrence} (hc : c ∈ cs.map o.child)
    (hd : d ∈ cs.map o.child) {path : List Slot} (hcp : c.path <+: path)
    (hdp : d.path <+: path) : c = d := by
  obtain ⟨⟨s, v⟩, hs, rfl⟩ := List.mem_map.mp hc
  obtain ⟨⟨t, w⟩, ht, rfl⟩ := List.mem_map.mp hd
  rw [Occurrence.path_child] at hcp hdp
  have hpre : o.path ++ [s] <+: o.path ++ [t] :=
    List.prefix_of_prefix_length_le hcp hdp (by simp)
  obtain rfl : s = t := by
    have he := hpre.eq_of_length (by simp)
    simpa using he
  have hv := (mem_children found).mp hs
  have hw := (mem_children found).mp ht
  rw [hv] at hw
  cases hw
  rfl

/-! ### Open scopes -/

/-- At each event the open scopes are those of nodes at or above it. -/
def Nested : List Occurrence → List Event → Prop
  | _, [] => True
  | scopes, e :: es =>
    (∀ s ∈ scopes, s.path <+: e.occurrence.path) ∧ Nested (e.after scopes) es

theorem nested_append {scopes : List Occurrence} {as bs : List Event} :
    Nested scopes (as ++ bs) ↔ Nested scopes as ∧ Nested (scopesAfter scopes as) bs := by
  induction as generalizing scopes with
  | nil => simp [Nested, scopesAfter]
  | cons e as ih =>
    simp only [List.cons_append, Nested, ih, and_assoc]
    rfl

theorem scopesAfter_flatMap {os : List Occurrence} (hos : ∀ c ∈ os, (describe g c).fault = none)
    (scopes : List Occurrence) :
    scopesAfter scopes (os.flatMap fun c => (describe g c).events) = scopes := by
  induction os with
  | nil => rfl
  | cons c os ih =>
    rw [List.flatMap_cons, scopesAfter_append,
      (balanced_describe g c scopes).2 (hos c List.mem_cons_self)]
    exact ih fun d hd => hos d (List.mem_cons_of_mem c hd)

theorem nested_flatMap {os : List Occurrence} {scopes : List Occurrence}
    (hos : ∀ c ∈ os, (describe g c).fault = none)
    (h : ∀ c ∈ os, Nested scopes (describe g c).events) :
    Nested scopes (os.flatMap fun c => (describe g c).events) := by
  induction os with
  | nil => trivial
  | cons c os ih =>
    rw [List.flatMap_cons, nested_append,
      (balanced_describe g c scopes).2 (hos c List.mem_cons_self)]
    exact ⟨h c List.mem_cons_self, ih (fun d hd => hos d (List.mem_cons_of_mem c hd))
      fun d hd => h d (List.mem_cons_of_mem c hd)⟩

theorem nested_entering {opens : Bool} {o : Occurrence} {scopes : List Occurrence}
    (h : ∀ s ∈ scopes, s.path <+: o.path) : Nested scopes (entering opens o) := by
  cases opens
  · exact ⟨h, trivial⟩
  · refine ⟨h, fun s hs => ?_, trivial⟩
    rcases List.mem_cons.mp hs with rfl | hs
    · exact List.prefix_rfl
    · exact h s hs

theorem nested_leaving {opens : Bool} {o : Occurrence} {scopes : List Occurrence}
    (h : ∀ s ∈ scopes, s.path <+: o.path) : Nested scopes (leaving opens o) := by
  cases opens
  · trivial
  · exact ⟨h, trivial⟩

theorem nested_describe (o : Occurrence) (h : (describe g o).fault = none) :
    ∀ scopes : List Occurrence, (∀ s ∈ scopes, s.path <+: o.path) →
      Nested scopes (describe g o).events := by
  induction o, h using complete_induction g with
  | skip o h rule hd =>
    intro scopes _
    rw [hd]
    trivial
  | descend o h r opens os rule scope found hd hos ih =>
    intro scopes hs
    have hopen : ∀ s ∈ (if opens then o :: scopes else scopes), s.path <+: o.path := by
      cases opens
      · exact hs
      · intro s hmem
        rcases List.mem_cons.mp hmem with rfl | hmem
        · exact List.prefix_rfl
        · exact hs s hmem
    have hentered := (pairs_entering opens o none scopes).2 rfl
    rw [hd, nested_append, nested_append, scopesAfter_append, hentered, scopesAfter_flatMap hos]
    refine ⟨⟨nested_entering hs, nested_flatMap hos fun c hc => ih c hc _ fun s hmem => ?_⟩,
      nested_leaving hopen⟩
    exact (hopen s hmem).trans (path_prefix_of_mem_children found hc)

theorem nested_describeTree {tree : Value} (h : (describeTree g tree).fault = none) :
    Nested [] (describeTree g tree).events := by
  have hos := describeTree_fault_eq_none.mp h
  rw [events_describeTree h]
  exact nested_flatMap hos fun o ho => nested_describe o (hos o ho) [] (List.forall_mem_nil _)

end Walk

end Estree
