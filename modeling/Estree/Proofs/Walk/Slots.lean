import Estree.Walk
import Mathlib.Data.List.Lex

/-!
The slots of the nodes below a node, and the paths they make.

Children come in the order of their slots, `childrenFrom_pairwise`, and are what the
slots hold, `mem_childrenFrom`.  A path is a list of slots from the root down.  Paths
are in lexicographic order, so one comes before those that go on from it.
-/

namespace Estree

namespace Slot

/-- One slot comes before another if its name does, or its index under the same
name. -/
def Before (s t : Slot) : Prop := s.name < t.name ∨ s.name = t.name ∧ s.index < t.index

theorem Before.irrefl (s : Slot) : ¬s.Before s := by simp [Before]

theorem Before.trans {s t u : Slot} (h : s.Before t) (h' : t.Before u) : s.Before u := by
  unfold Before at *
  omega

end Slot

namespace Value

/-- The node that a property holds at an index. -/
def nodeAt? (v : Value) (i : Nat) : Option Value :=
  match v with
  | .list items => items[i]?.filter isNode
  | v => if i = 0 ∧ v.isNode = true then some v else none

/-- The node in a slot, under one of the names. -/
def childAt? (v : Value) (names : List Entry) (s : Slot) : Option Value := do
  let name ← names[s.name]?
  let found ← (v.propNamed name).toOption
  found.nodeAt? s.index

theorem mem_nodesAt {n : Nat} {v : Value} {c : Slot × Value} :
    c ∈ v.nodesAt n ↔ c.1.name = n ∧ v.nodeAt? c.1.index = some c.2 := by
  obtain ⟨⟨name, index⟩, child⟩ := c
  cases v with
  | list items => simp [mem_nodesAt_list, nodeAt?, Option.filter_eq_some_iff]
  | object style fields =>
    simp only [nodesAt, nodeAt?]
    by_cases h : (object style fields).isNode = true
    · simp [h, and_assoc, eq_comm]
    · simp [h]
  | _ => simp [nodesAt, nodeAt?, isNode, type?, prop, text?]

theorem nodesAt_pairwise (n : Nat) (v : Value) :
    (v.nodesAt n).Pairwise fun c d => c.1.Before d.1 := by
  cases v with
  | list items =>
    have h : (items.zipIdx).Pairwise fun a b => a.2 < b.2 := by
      have := List.pairwise_lt_range' (s := 0) (n := items.length)
      rw [← List.zipIdx_map_snd 0 items, List.pairwise_map] at this
      exact this
    simp only [nodesAt, List.pairwise_map]
    exact (h.filter _).imp fun hab => .inr ⟨rfl, hab⟩
  | object style fields =>
    simp only [nodesAt]
    split
    · exact List.pairwise_singleton _ _
    · exact List.Pairwise.nil
  | _ => exact List.Pairwise.nil

theorem mem_childrenFrom {v : Value} {c : Slot × Value} :
    ∀ {n : Nat} {names : List Entry} {cs : List (Slot × Value)},
      v.childrenFrom n names = .ok cs →
        (c ∈ cs ↔ n ≤ c.1.name ∧ v.childAt? names ⟨c.1.name - n, c.1.index⟩ = some c.2)
  | n, [], cs, h => by cases h; simp [childAt?]
  | n, name :: rest, cs, h => by
    obtain ⟨found, more, hf, hr, rfl⟩ := childrenFrom_cons_eq_ok.mp h
    rw [List.mem_append, mem_nodesAt, mem_childrenFrom hr]
    rcases Nat.lt_trichotomy c.1.name n with hlt | heq | hgt
    · have h1 : ¬n ≤ c.1.name := by omega
      have h2 : ¬n + 1 ≤ c.1.name := by omega
      simp [h1, h2, Nat.ne_of_lt hlt]
    · simp [childAt?, heq, hf, Except.toOption]
    · have h1 : n ≤ c.1.name := by omega
      have h2 : c.1.name ≠ n := by omega
      have h3 : c.1.name - n = c.1.name - (n + 1) + 1 := by omega
      simp [childAt?, h1, h2, h3, Nat.succ_le_of_lt hgt]

theorem childrenFrom_pairwise {v : Value} :
    ∀ {n : Nat} {names : List Entry} {cs : List (Slot × Value)},
      v.childrenFrom n names = .ok cs → cs.Pairwise fun c d => c.1.Before d.1
  | _, [], _, h => by cases h; exact List.Pairwise.nil
  | n, name :: rest, cs, h => by
    obtain ⟨found, more, hf, hr, rfl⟩ := childrenFrom_cons_eq_ok.mp h
    refine List.pairwise_append.mpr ⟨nodesAt_pairwise n found, childrenFrom_pairwise hr, ?_⟩
    intro c hc d hd
    have hn := (mem_nodesAt.mp hc).1
    have hm := ((mem_childrenFrom hr).mp hd).1
    exact .inl (by omega)

end Value

end Estree
