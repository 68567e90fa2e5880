import Estree.Log

/-!
Sorting values of which not all can be compared.  Such a sort ends at the first two
that it compares and that have no order, so which pairs it compares is part of what
it does.  It keeps what is in order already, brings a value to its place by halving,
and merges a long list from parts.  Main statement: a sort that comes to its end
rearranges the list (`perm_of_sort`).
-/

namespace Estree

namespace Sorting

variable {α ε : Type}

/-! ### Insertion -/

/-- Put a value into a list in order, after those that are no greater.  It is compared
with the middle one, and goes on in one of the halves. -/
def insert (less : α → α → Except ε Bool) (x : α) (s : List α) : Except ε (List α) :=
  match _h : s.drop (s.length / 2) with
  | [] => .ok [x]
  | y :: after => do
    if ← less x y then return (← insert less x (s.take (s.length / 2))) ++ y :: after
    else return s.take (s.length / 2) ++ y :: (← insert less x after)
termination_by s.length
decreasing_by
  · have hl := congrArg List.length _h
    simp only [List.length_drop, List.length_cons] at hl
    simp only [List.length_take]
    omega
  · have hl := congrArg List.length _h
    simp only [List.length_drop, List.length_cons] at hl
    omega

theorem perm_of_insert {less : α → α → Except ε Bool} {x : α} {s t : List α}
    (h : insert less x s = .ok t) : t.Perm (x :: s) := by
  fun_induction insert less x s generalizing t with
  | case1 s hs =>
    cases h
    have : s = [] := by
      have hl := congrArg List.length hs
      simp only [List.length_drop, List.length_nil] at hl
      exact List.eq_nil_of_length_eq_zero (by omega)
    rw [this]
  | case2 s y after hs ihBefore ihAfter =>
    have hcut : s.take (s.length / 2) ++ y :: after = s := by
      rw [← hs, List.take_append_drop]
    obtain ⟨falls, _, h⟩ := Logged.bind_eq_ok.mp h
    suffices hp : t.Perm (x :: (s.take (s.length / 2) ++ y :: after)) by
      rwa [hcut] at hp
    cases falls with
    | true =>
      obtain ⟨u, hu, h⟩ := Logged.bind_eq_ok.mp h
      cases h
      exact (ihBefore hu).append_right (y :: after)
    | false =>
      obtain ⟨u, hu, h⟩ := Logged.bind_eq_ok.mp h
      cases h
      exact ((((ihAfter hu).cons y).trans (.swap x y after)).append_left _).trans
        List.perm_middle

/-- Insert values one after another. -/
def fill (less : α → α → Except ε Bool) (s : List α) : List α → Except ε (List α)
  | [] => .ok s
  | x :: rest => do fill less (← insert less x s) rest

theorem perm_of_fill {less : α → α → Except ε Bool} {s rest t : List α}
    (h : fill less s rest = .ok t) : t.Perm (s ++ rest) := by
  induction rest generalizing s with
  | nil =>
    cases h
    rw [List.append_nil]
  | cons x rest ih =>
    obtain ⟨u, hu, h⟩ := Logged.bind_eq_ok.mp h
    exact ((ih h).trans ((perm_of_insert hu).append_right rest)).trans List.perm_middle.symm

/-! ### Parts -/

/-- The values at the front of a list that go on falling from the last one, or go on
not falling, and the rest. -/
def run (less : α → α → Except ε Bool) (falling : Bool) :
    α → List α → Except ε (List α × List α)
  | _, [] => .ok ([], [])
  | last, x :: rest => do
    if (← less x last) = falling then
      let (more, rest) ← run less falling x rest
      return (x :: more, rest)
    else return ([], x :: rest)

/-- The front of a list that is in order, and the rest.  A front that falls is turned
round. -/
def front (less : α → α → Except ε Bool) : List α → Except ε (List α × List α)
  | a :: b :: rest => do
    let falling ← less b a
    let (more, rest) ← run less falling b rest
    return (if falling then (a :: b :: more).reverse else a :: b :: more, rest)
  | s => .ok (s, [])

theorem append_of_run {less : α → α → Except ε Bool} {falling : Bool} {last : α}
    {s more rest : List α} (h : run less falling last s = .ok (more, rest)) :
    more ++ rest = s := by
  induction s generalizing last more with
  | nil =>
    cases h
    rfl
  | cons x s ih =>
    obtain ⟨falls, _, h⟩ := Logged.bind_eq_ok.mp h
    split at h
    · obtain ⟨⟨more', rest'⟩, hr, h⟩ := Logged.bind_eq_ok.mp h
      cases h
      rw [List.cons_append, ih hr]
    · cases h
      rfl

theorem perm_of_front {less : α → α → Except ε Bool} {s inOrder rest : List α}
    (h : front less s = .ok (inOrder, rest)) : (inOrder ++ rest).Perm s := by
  match s, h with
  | [], h =>
    cases h
    exact .nil
  | [a], h =>
    cases h
    exact .refl [a]
  | a :: b :: s, h =>
    obtain ⟨falling, _, h⟩ := Logged.bind_eq_ok.mp h
    obtain ⟨⟨more, rest'⟩, hr, h⟩ := Logged.bind_eq_ok.mp h
    cases h
    rw [← append_of_run hr]
    cases falling with
    | true => exact (List.reverse_perm (a :: b :: more)).append_right rest
    | false => exact .refl _

/-- The list cut into parts, each put in order: a front, filled up to a least length.
A part holds at least one value, so the length of the list is fuel enough. -/
def parts (less : α → α → Except ε Bool) (least : Nat) :
    Nat → List α → Except ε (List (List α))
  | _, [] => .ok []
  | 0, s => .ok [s]
  | fuel + 1, s => do
    let (inOrder, rest) ← front less s
    let owed := least - inOrder.length
    let part ← fill less inOrder (rest.take owed)
    return part :: (← parts less least fuel (rest.drop owed))

theorem perm_of_parts {less : α → α → Except ε Bool} {least fuel : Nat} {s : List α}
    {ps : List (List α)} (h : parts less least fuel s = .ok ps) : ps.flatten.Perm s := by
  fun_induction parts less least fuel s generalizing ps with
  | case1 =>
    cases h
    exact .nil
  | case2 s hs =>
    cases h
    rw [List.flatten_singleton]
  | case3 fuel s hs ih =>
    obtain ⟨⟨inOrder, rest⟩, hf, h⟩ := Logged.bind_eq_ok.mp h
    obtain ⟨part, hp, h⟩ := Logged.bind_eq_ok.mp h
    obtain ⟨more, hm, h⟩ := Logged.bind_eq_ok.mp h
    cases h
    have hcut := List.take_append_drop (least - inOrder.length) rest
    rw [List.flatten_cons]
    refine ((perm_of_fill hp).append (ih _ _ hm)).trans ?_
    rw [List.append_assoc, hcut]
    exact perm_of_front hf

/-- The least length of the parts of a list: below 64 that of the list, and otherwise
what is left, rounded up, when it is halved until it is below 64. -/
def leastPart (n : Nat) : Nat :=
  let count := Nat.pow 2 (n.log2 - 5)
  (n + count - 1) / count

/-! ### Merging -/

/-- Two lists in order as one; of equals those of the first list stand first. -/
def merge (less : α → α → Except ε Bool) : List α → List α → Except ε (List α)
  | [], t => .ok t
  | s, [] => .ok s
  | a :: s, b :: t => do
    if ← less b a then return b :: (← merge less (a :: s) t)
    else return a :: (← merge less s (b :: t))
termination_by s t => s.length + t.length

theorem perm_of_merge {less : α → α → Except ε Bool} {s t u : List α}
    (h : merge less s t = .ok u) : u.Perm (s ++ t) := by
  fun_induction merge less s t generalizing u with
  | case1 t =>
    cases h
    exact .refl t
  | case2 s hs =>
    cases h
    rw [List.append_nil]
  | case3 a s b t ihFirst ihSecond =>
    obtain ⟨falls, _, h⟩ := Logged.bind_eq_ok.mp h
    cases falls with
    | true =>
      obtain ⟨v, hv, h⟩ := Logged.bind_eq_ok.mp h
      cases h
      exact ((ihFirst hv).cons b).trans List.perm_middle.symm
    | false =>
      obtain ⟨v, hv, h⟩ := Logged.bind_eq_ok.mp h
      cases h
      exact (ihSecond hv).cons a

/-- The list in increasing order; equals keep their order. -/
def sort (less : α → α → Except ε Bool) (s : List α) : Except ε (List α) := do
  (← parts less (leastPart s.length) s.length s).foldlM (merge less) []

theorem perm_of_foldlM_merge {less : α → α → Except ε Bool} {ps : List (List α)}
    {s t : List α} (h : ps.foldlM (merge less) s = .ok t) : t.Perm (s ++ ps.flatten) := by
  induction ps generalizing s with
  | nil =>
    cases h
    rw [List.flatten_nil, List.append_nil]
  | cons p ps ih =>
    rw [List.foldlM_cons] at h
    obtain ⟨u, hu, h⟩ := Logged.bind_eq_ok.mp h
    rw [List.flatten_cons, ← List.append_assoc]
    exact (ih h).trans ((perm_of_merge hu).append_right ps.flatten)

theorem perm_of_sort {less : α → α → Except ε Bool} {s t : List α}
    (h : sort less s = .ok t) : t.Perm s := by
  obtain ⟨ps, hp, h⟩ := Logged.bind_eq_ok.mp h
  exact (perm_of_foldlM_merge h).trans (perm_of_parts hp)

end Sorting

end Estree
