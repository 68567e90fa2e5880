import Estree.Sorting
import Estree.Text
import Mathlib.Data.List.Lex
import Mathlib.Data.List.Pairwise

/-!
Sorts that come to their end.

If the values of a list can all be compared, and the answers agree with an order, then
inserting, cutting into parts and merging all succeed and keep lists in order.  So the
sort succeeds, and what it gives is in order: `exists_sort`.  Texts can all be compared.

A sort never compares a value with itself.  So two ways to compare that say the same of
values at different places sort alike: `sort_congr`.
-/

namespace Estree

namespace Sorting

variable {α ε : Type}

/-- Values of a kind are compared as they stand in an order. -/
structure Decides (less : α → α → Except ε Bool) (kind : α → Prop) (le : α → α → Prop) :
    Prop where
  trans : ∀ {a b c}, le a b → le b c → le a c
  answer : ∀ {a b}, kind a → kind b →
    (less a b = .ok true ∧ le a b) ∨ (less a b = .ok false ∧ le b a)

variable {less : α → α → Except ε Bool} {kind : α → Prop} {le : α → α → Prop}

/-! ### Insertion -/

theorem exists_insert (h : Decides less kind le) {x : α} {s : List α} (hx : kind x)
    (hs : ∀ y ∈ s, kind y) (sorted : s.Pairwise le) :
    ∃ t, insert less x s = .ok t ∧ t.Pairwise le := by
  fun_induction insert less x s with
  | case1 s hdrop => exact ⟨[x], rfl, List.pairwise_singleton _ _⟩
  | case2 s y after hdrop ihBefore ihAfter =>
    have hcut : s.take (s.length / 2) ++ y :: after = s := by
      rw [← hdrop, List.take_append_drop]
    generalize s.take (s.length / 2) = before at hcut ihBefore
    subst hcut
    obtain ⟨hbefore, hrest, hcross⟩ := List.pairwise_append.mp sorted
    obtain ⟨hy, hafter⟩ := List.pairwise_cons.mp hrest
    have hmem : ∀ z ∈ before, kind z := fun z hz => hs z (List.mem_append_left _ hz)
    have hmem' : ∀ z ∈ after, kind z := fun z hz =>
      hs z (List.mem_append_right _ (List.mem_cons_of_mem y hz))
    rcases h.answer hx (hs y (List.mem_append_right _ List.mem_cons_self)) with
      ⟨hless, hle⟩ | ⟨hless, hle⟩
    · obtain ⟨u, hu, husorted⟩ := ihBefore hmem hbefore
      refine ⟨u ++ y :: after, ?_, List.pairwise_append.mpr ⟨husorted, hrest, ?_⟩⟩
      · simp only [hless, hu, bind, Except.bind, if_true]
        rfl
      · intro a ha b hb
        rcases List.mem_cons.mp ((perm_of_insert hu).mem_iff.mp ha) with rfl | ha
        · rcases List.mem_cons.mp hb with rfl | hb
          · exact hle
          · exact h.trans hle (hy b hb)
        · exact hcross a ha b hb
    · obtain ⟨u, hu, husorted⟩ := ihAfter hmem' hafter
      refine ⟨before ++ y :: u, ?_, List.pairwise_append.mpr ⟨hbefore, ?_, ?_⟩⟩
      · simp only [hless, hu, bind, Except.bind, Bool.false_eq_true, if_false]
        rfl
      · refine List.pairwise_cons.mpr ⟨fun b hb => ?_, husorted⟩
        rcases List.mem_cons.mp ((perm_of_insert hu).mem_iff.mp hb) with rfl | hb
        · exact hle
        · exact hy b hb
      · intro a ha b hb
        have hay : le a y := hcross a ha y List.mem_cons_self
        rcases List.mem_cons.mp hb with rfl | hb
        · exact hay
        · rcases List.mem_cons.mp ((perm_of_insert hu).mem_iff.mp hb) with rfl | hb
          · exact h.trans hay hle
          · exact hcross a ha b (List.mem_cons_of_mem y hb)

theorem exists_fill (h : Decides less kind le) {s rest : List α} (hs : ∀ y ∈ s, kind y)
    (hrest : ∀ y ∈ rest, kind y) (sorted : s.Pairwise le) :
    ∃ t, fill less s rest = .ok t ∧ t.Pairwise le := by
  induction rest generalizing s with
  | nil => exact ⟨s, rfl, sorted⟩
  | cons x rest ih =>
    have hx := hrest x List.mem_cons_self
    obtain ⟨u, hu, husorted⟩ := exists_insert h hx hs sorted
    have hkind : ∀ y ∈ u, kind y := by
      intro y hy
      rcases List.mem_cons.mp ((perm_of_insert hu).mem_iff.mp hy) with rfl | hy
      · exact hx
      · exact hs y hy
    obtain ⟨t, ht, htsorted⟩ := ih hkind (fun y hy => hrest y (List.mem_cons_of_mem x hy)) husorted
    refine ⟨t, ?_, htsorted⟩
    rw [fill, hu]
    exact ht

/-! ### Parts -/

/-- The order in which the values of a run stand. -/
def towards (falling : Bool) (le : α → α → Prop) (a b : α) : Prop :=
  if falling then le b a else le a b

theorem towards_of_less (h : Decides less kind le) {a b : α} (ha : kind a) (hb : kind b) :
    ∃ falling, less b a = .ok falling ∧ towards falling le a b := by
  rcases h.answer hb ha with ⟨hless, hle⟩ | ⟨hless, hle⟩
  · exact ⟨true, hless, hle⟩
  · exact ⟨false, hless, hle⟩

theorem isTrans_towards (h : Decides less kind le) (falling : Bool) :
    IsTrans α (towards falling le) where
  trans _ _ _ hab hbc := by
    cases falling with
    | true => exact h.trans hbc hab
    | false => exact h.trans hab hbc

theorem exists_run (h : Decides less kind le) (falling : Bool) {last : α} {s : List α}
    (hlast : kind last) (hs : ∀ y ∈ s, kind y) :
    ∃ more rest, run less falling last s = .ok (more, rest) ∧
      (last :: more).Pairwise (towards falling le) := by
  induction s generalizing last with
  | nil => exact ⟨[], [], rfl, List.pairwise_singleton _ _⟩
  | cons x s ih =>
    have hx := hs x List.mem_cons_self
    obtain ⟨falls, hless, htowards⟩ := towards_of_less h hlast hx
    by_cases hf : falls = falling
    · subst hf
      obtain ⟨more, rest, hrun, hsorted⟩ := ih hx fun y hy => hs y (List.mem_cons_of_mem x hy)
      have := isTrans_towards h falls
      refine ⟨x :: more, rest, ?_, hsorted.cons_cons_of_trans htowards⟩
      simp only [run, hless, hrun, bind, Except.bind, if_true]
      rfl
    · refine ⟨[], x :: s, ?_, List.pairwise_singleton _ _⟩
      simp only [run, hless, bind, Except.bind, if_neg hf]
      rfl

theorem exists_front (h : Decides less kind le) {s : List α} (hs : ∀ y ∈ s, kind y) :
    ∃ inOrder rest, front less s = .ok (inOrder, rest) ∧ inOrder.Pairwise le := by
  match s, hs with
  | [], _ => exact ⟨[], [], rfl, .nil⟩
  | [a], _ => exact ⟨[a], [], rfl, List.pairwise_singleton _ _⟩
  | a :: b :: s, hs =>
    have ha := hs a List.mem_cons_self
    have hb := hs b (List.mem_cons_of_mem a List.mem_cons_self)
    obtain ⟨falling, hless, htowards⟩ := towards_of_less h ha hb
    obtain ⟨more, rest, hrun, hsorted⟩ := exists_run h falling hb fun y hy =>
      hs y (List.mem_cons_of_mem a (List.mem_cons_of_mem b hy))
    have := isTrans_towards h falling
    have hall := hsorted.cons_cons_of_trans htowards
    refine ⟨if falling then (a :: b :: more).reverse else a :: b :: more, rest, ?_, ?_⟩
    · simp only [front, hless, hrun, bind, Except.bind]
      rfl
    · cases falling with
      | true => exact List.pairwise_reverse.mpr hall
      | false => exact hall

/-- A part takes at least one value off the list. -/
theorem length_of_front {a : α} {s inOrder rest : List α}
    (h : front less (a :: s) = .ok (inOrder, rest)) : rest.length ≤ s.length := by
  cases s with
  | nil => cases h; exact Nat.le_refl 0
  | cons b s =>
    obtain ⟨falling, _, h⟩ := Logged.bind_eq_ok.mp h
    obtain ⟨⟨more, rest'⟩, hr, h⟩ := Logged.bind_eq_ok.mp h
    cases h
    have hlength := congrArg List.length (append_of_run hr)
    rw [List.length_append] at hlength
    rw [List.length_cons]
    omega

theorem exists_parts (h : Decides less kind le) {least fuel : Nat} {s : List α}
    (hfuel : s.length ≤ fuel) (hs : ∀ y ∈ s, kind y) :
    ∃ ps, parts less least fuel s = .ok ps ∧ ∀ p ∈ ps, p.Pairwise le := by
  induction fuel generalizing s with
  | zero =>
    obtain rfl := List.eq_nil_of_length_eq_zero (Nat.le_zero.mp hfuel)
    exact ⟨[], rfl, List.forall_mem_nil _⟩
  | succ fuel ih =>
    cases s with
    | nil => exact ⟨[], rfl, List.forall_mem_nil _⟩
    | cons a s =>
      obtain ⟨inOrder, rest, hfront, hsorted⟩ := exists_front h hs
      have hmem := fun y => (perm_of_front hfront).mem_iff (a := y)
      have hin : ∀ y ∈ inOrder, kind y := fun y hy => hs y ((hmem y).mp (List.mem_append_left _ hy))
      have hrest : ∀ y ∈ rest, kind y := fun y hy => hs y ((hmem y).mp (List.mem_append_right _ hy))
      have htake : ∀ y ∈ rest.take (least - inOrder.length), kind y := fun y hy =>
        hrest y (List.mem_of_mem_take hy)
      obtain ⟨part, hpart, hpartsorted⟩ := exists_fill h hin htake hsorted
      have hlength : (rest.drop (least - inOrder.length)).length ≤ fuel := by
        have hshort := length_of_front hfront
        rw [List.length_cons] at hfuel
        rw [List.length_drop]
        omega
      obtain ⟨ps, hps, hpssorted⟩ := ih hlength fun y hy => hrest y (List.mem_of_mem_drop hy)
      refine ⟨part :: ps, ?_, List.forall_mem_cons.mpr ⟨hpartsorted, hpssorted⟩⟩
      simp only [parts, hfront, hpart, hps, bind, Except.bind]
      rfl

/-! ### Merging -/

theorem exists_merge (h : Decides less kind le) {s t : List α} (hs : ∀ y ∈ s, kind y)
    (ht : ∀ y ∈ t, kind y) (sorted : s.Pairwise le) (sorted' : t.Pairwise le) :
    ∃ u, merge less s t = .ok u ∧ u.Pairwise le := by
  fun_induction merge less s t with
  | case1 t => exact ⟨t, rfl, sorted'⟩
  | case2 s hne => exact ⟨s, rfl, sorted⟩
  | case3 a s b t ihFirst ihSecond =>
    obtain ⟨ha, hsorted⟩ := List.pairwise_cons.mp sorted
    obtain ⟨hb, hsorted'⟩ := List.pairwise_cons.mp sorted'
    have hks : ∀ y ∈ s, kind y := fun y hy => hs y (List.mem_cons_of_mem a hy)
    have hkt : ∀ y ∈ t, kind y := fun y hy => ht y (List.mem_cons_of_mem b hy)
    rcases h.answer (ht b List.mem_cons_self) (hs a List.mem_cons_self) with
      ⟨hless, hle⟩ | ⟨hless, hle⟩
    · obtain ⟨u, hu, husorted⟩ := ihFirst hs hkt sorted hsorted'
      refine ⟨b :: u, ?_, List.pairwise_cons.mpr ⟨fun z hz => ?_, husorted⟩⟩
      · simp only [hless, hu, bind, Except.bind, if_true]
        rfl
      · rcases List.mem_append.mp ((perm_of_merge hu).mem_iff.mp hz) with hz | hz
        · rcases List.mem_cons.mp hz with rfl | hz
          · exact hle
          · exact h.trans hle (ha z hz)
        · exact hb z hz
    · obtain ⟨u, hu, husorted⟩ := ihSecond hks ht hsorted sorted'
      refine ⟨a :: u, ?_, List.pairwise_cons.mpr ⟨fun z hz => ?_, husorted⟩⟩
      · simp only [hless, hu, bind, Except.bind, Bool.false_eq_true, if_false]
        rfl
      · rcases List.mem_append.mp ((perm_of_merge hu).mem_iff.mp hz) with hz | hz
        · exact ha z hz
        · rcases List.mem_cons.mp hz with rfl | hz
          · exact hle
          · exact h.trans hle (hb z hz)

theorem exists_foldlM_merge (h : Decides less kind le) {ps : List (List α)} {s : List α}
    (hs : ∀ y ∈ s, kind y) (hps : ∀ p ∈ ps, ∀ y ∈ p, kind y) (sorted : s.Pairwise le)
    (sorted' : ∀ p ∈ ps, p.Pairwise le) :
    ∃ t, ps.foldlM (merge less) s = .ok t ∧ t.Pairwise le := by
  induction ps generalizing s with
  | nil => exact ⟨s, rfl, sorted⟩
  | cons p ps ih =>
    have hp := hps p List.mem_cons_self
    obtain ⟨u, hu, husorted⟩ := exists_merge h hs hp sorted (sorted' p List.mem_cons_self)
    have hkind : ∀ y ∈ u, kind y := by
      intro y hy
      rcases List.mem_append.mp ((perm_of_merge hu).mem_iff.mp hy) with hy | hy
      · exact hs y hy
      · exact hp y hy
    obtain ⟨t, ht, htsorted⟩ := ih hkind (fun q hq => hps q (List.mem_cons_of_mem p hq)) husorted
      fun q hq => sorted' q (List.mem_cons_of_mem p hq)
    refine ⟨t, ?_, htsorted⟩
    rw [List.foldlM_cons, hu]
    exact ht

/-- Values that can all be compared are sorted. -/
theorem exists_sort (h : Decides less kind le) {s : List α} (hs : ∀ y ∈ s, kind y) :
    ∃ t, sort less s = .ok t ∧ t.Perm s ∧ t.Pairwise le := by
  obtain ⟨ps, hparts, hpsorted⟩ : ∃ ps, parts less (leastPart s.length) s.length s = .ok ps ∧
      ∀ p ∈ ps, p.Pairwise le := exists_parts h (Nat.le_refl s.length) hs
  have hmem : ∀ p ∈ ps, ∀ y ∈ p, kind y := fun p hp y hy =>
    hs y ((perm_of_parts hparts).mem_iff.mp (List.mem_flatten.mpr ⟨p, hp, hy⟩))
  obtain ⟨t, ht, htsorted⟩ := exists_foldlM_merge h (List.forall_mem_nil _) hmem .nil hpsorted
  have hsort : sort less s = .ok t := by
    rw [sort, hparts]
    exact ht
  exact ⟨t, hsort, perm_of_sort hsort, htsorted⟩

/-! ### Values at different places -/

/-- Two ways to compare say the same of two values, whichever comes first. -/
def Alike (less less' : α → α → Except ε Bool) (a b : α) : Prop :=
  less a b = less' a b ∧ less b a = less' b a

theorem bind_congr_ok {β γ : Type} {x : Except ε β} {f g : β → Except ε γ}
    (h : ∀ b, x = .ok b → f b = g b) : x.bind f = x.bind g := by
  cases x with
  | error e => rfl
  | ok b => exact h b rfl

section Alike

variable {less less' : α → α → Except ε Bool}

theorem Alike.swap {a b : α} (h : Alike less less' a b) : Alike less less' b a := ⟨h.2, h.1⟩

theorem insert_cons (less : α → α → Except ε Bool) {x y : α} {s after : List α}
    (h : s.drop (s.length / 2) = y :: after) :
    insert less x s = (less x y).bind fun falls =>
      if falls then (insert less x (s.take (s.length / 2))).bind fun u => .ok (u ++ y :: after)
      else (insert less x after).bind fun u => .ok (s.take (s.length / 2) ++ y :: u) := by
  rw [insert.eq_def]
  split
  · rename_i hnil
    cases hnil.symm.trans h
  · rename_i y' after' hcons
    cases hcons.symm.trans h
    rfl

theorem insert_congr {x : α} {s : List α} (h : ∀ y ∈ s, less x y = less' x y) :
    insert less x s = insert less' x s := by
  fun_induction insert less x s with
  | case1 s hdrop =>
    rw [insert.eq_def]
    split
    · rfl
    · rename_i hcons
      cases hdrop.symm.trans hcons
  | case2 s y after hdrop ihBefore ihAfter =>
    have hcut : s.take (s.length / 2) ++ y :: after = s := by
      rw [← hdrop, List.take_append_drop]
    have hbefore := ihBefore fun z hz => h z (List.mem_of_mem_take hz)
    have hafter := ihAfter fun z hz =>
      h z (hcut ▸ List.mem_append_right _ (List.mem_cons_of_mem y hz))
    have hy : less x y = less' x y := h y (hcut ▸ List.mem_append_right _ List.mem_cons_self)
    rw [insert_cons less' hdrop, ← hy, ← hbefore, ← hafter]
    rfl

theorem fill_congr {s rest : List α} (h : (s ++ rest).Pairwise (Alike less less')) :
    fill less s rest = fill less' s rest := by
  induction rest generalizing s with
  | nil => rfl
  | cons x rest ih =>
    have hcross := (List.pairwise_append.mp h).2.2
    have hx : insert less x s = insert less' x s :=
      insert_congr fun y hy => (hcross y hy x List.mem_cons_self).2
    rw [fill, fill, ← hx]
    refine bind_congr_ok fun u hu => ih ?_
    have hperm : (u ++ rest).Perm (s ++ x :: rest) :=
      ((perm_of_insert hu).append_right rest).trans List.perm_middle.symm
    exact (hperm.pairwise_iff Alike.swap).mpr h

theorem run_congr {falling : Bool} {last : α} {s : List α}
    (h : (last :: s).Pairwise (Alike less less')) :
    run less falling last s = run less' falling last s := by
  induction s generalizing last with
  | nil => rfl
  | cons x s ih =>
    obtain ⟨hlast, hrest⟩ := List.pairwise_cons.mp h
    rw [run, run, (hlast x List.mem_cons_self).2, ih hrest]

theorem front_congr {s : List α} (h : s.Pairwise (Alike less less')) :
    front less s = front less' s := by
  match s, h with
  | [], _ => rfl
  | [a], _ => rfl
  | a :: b :: s, h =>
    obtain ⟨ha, hrest⟩ := List.pairwise_cons.mp h
    rw [front, front, (ha b List.mem_cons_self).2]
    exact bind_congr_ok fun falling _ => by rw [run_congr hrest]

theorem parts_congr {least fuel : Nat} {s : List α} (h : s.Pairwise (Alike less less')) :
    parts less least fuel s = parts less' least fuel s := by
  induction fuel generalizing s with
  | zero => cases s <;> rfl
  | succ fuel ih =>
    cases s with
    | nil => rfl
    | cons a s =>
      simp only [parts, ← front_congr h]
      refine bind_congr_ok fun ⟨inOrder, rest⟩ hfront => ?_
      have hall : (inOrder ++ rest).Pairwise (Alike less less') :=
        ((perm_of_front hfront).pairwise_iff Alike.swap).mpr h
      have hrest := (List.pairwise_append.mp hall).2.1
      have htake : (inOrder ++ rest.take (least - inOrder.length)).Pairwise (Alike less less') :=
        hall.sublist ((List.take_sublist _ rest).append_left inOrder)
      dsimp only
      rw [fill_congr htake, ih (hrest.sublist (List.drop_sublist _ rest))]

theorem merge_congr {s t : List α} (h : ∀ a ∈ s, ∀ b ∈ t, less b a = less' b a) :
    merge less s t = merge less' s t := by
  fun_induction merge less s t with
  | case1 t => rw [merge]
  | case2 s hne => rw [merge.eq_2 less' s hne]
  | case3 a s b t ihFirst ihSecond =>
    have hfirst := ihFirst fun x hx y hy => h x hx y (List.mem_cons_of_mem b hy)
    have hsecond := ihSecond fun x hx y hy => h x (List.mem_cons_of_mem a hx) y hy
    rw [merge.eq_def less']
    dsimp only
    rw [← hfirst, ← hsecond, ← h a List.mem_cons_self b List.mem_cons_self]

theorem foldlM_merge_congr {ps : List (List α)} {s : List α}
    (h : (s ++ ps.flatten).Pairwise (Alike less less')) :
    ps.foldlM (merge less) s = ps.foldlM (merge less') s := by
  induction ps generalizing s with
  | nil => rfl
  | cons p ps ih =>
    rw [List.flatten_cons] at h
    have hmerge : merge less s p = merge less' s p := merge_congr fun a ha b hb =>
      ((List.pairwise_append.mp h).2.2 a ha b (List.mem_append_left _ hb)).2
    rw [List.foldlM_cons, List.foldlM_cons, ← hmerge]
    refine bind_congr_ok fun u hu => ih ?_
    have hperm : (u ++ ps.flatten).Perm (s ++ (p ++ ps.flatten)) := by
      rw [← List.append_assoc]
      exact (perm_of_merge hu).append_right _
    exact (hperm.pairwise_iff Alike.swap).mpr h

/-- A sort asks only about values at different places, so it does not matter what is said of
a value and itself. -/
theorem sort_congr {s : List α} (h : s.Pairwise (Alike less less')) :
    sort less s = sort less' s := by
  rw [sort, sort, ← parts_congr h]
  refine bind_congr_ok fun ps hps => foldlM_merge_congr ?_
  rw [List.nil_append]
  exact ((perm_of_parts hps).pairwise_iff Alike.swap).mpr h

end Alike

end Sorting

/-! ### Texts -/

namespace Letter

theorem code_inj {a b : Letter} : a.code = b.code ↔ a = b :=
  ⟨fun h => by rw [← ofCode_code a, ← ofCode_code b, h], fun h => h ▸ rfl⟩

end Letter

namespace Text

/-- Texts are in the order of the lists of their codes, which is linear. -/
theorem lt_iff {s t : Text} :
    s < t ↔ s.letters.map Letter.code < t.letters.map Letter.code := by
  obtain ⟨as⟩ := s
  obtain ⟨bs⟩ := t
  show as < bs ↔ as.map Letter.code < bs.map Letter.code
  induction as generalizing bs with
  | nil => cases bs <;> simp
  | cons a as ih =>
    cases bs with
    | nil => simp
    | cons b bs =>
      rw [List.map_cons, List.map_cons, List.cons_lt_cons_iff, List.cons_lt_cons_iff, ih,
        Letter.code_inj]
      rfl

theorem not_lt_trans {s t u : Text} (hst : ¬t < s) (htu : ¬u < t) : ¬u < s := by
  rw [lt_iff, not_lt] at *
  exact hst.trans htu

theorem not_lt_of_lt {s t : Text} (h : s < t) : ¬t < s := by
  rw [lt_iff] at *
  exact h.not_gt

theorem lt_of_not_lt {s t : Text} (h : ¬t < s) (hne : s ≠ t) : s < t := by
  rw [lt_iff, not_lt] at *
  refine lt_of_le_of_ne h fun he => hne (Text.ext ?_)
  exact List.map_injective_iff.mpr (fun _ _ => Letter.code_inj.mp) he

end Text

end Estree
