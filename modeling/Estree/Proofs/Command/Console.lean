import Estree.Command
import Mathlib.Data.List.Basic

/-!
What a console leaves of what a command has to say.

Items go to the console one after another, and a text after them.  The console takes them
up to the first that it refuses, `Console.Refuses`, which is at most one, `Refuses.unique`.
Either there is none and nothing is lost, or the refusal is all that the command ends with:
`Outcome.on_cases`.
-/

namespace Estree

namespace Command

namespace Console

variable {c : Console}

/-- Each of some items is taken after those before it. -/
def Takes (c : Console) (items : List Shown) : Prop :=
  ∀ before item after, items = before ++ item :: after → c.shows before item = none

/-- Of items, and of a text after them, the first that is refused comes after those that
are taken. -/
inductive Refuses (c : Console) (items : List Shown) (text : String) :
    List Shown → Refusal → Prop
  | item {taken : List Shown} {item : Shown} {rest : List Shown} {r : Refusal}
      (split : items = taken ++ item :: rest) (takes : c.Takes taken)
      (refused : c.shows taken item = some r) : Refuses c items text taken r
  | text {r : Refusal} (takes : c.Takes items) (nonempty : text ≠ "")
      (refused : c.writes text = some r) : Refuses c items text items r

theorem takes_nil (c : Console) : c.Takes [] := by
  intro before item after h
  cases before <;> cases h

theorem Takes.concat {items : List Shown} {item : Shown} (h : c.Takes items)
    (hitem : c.shows items item = none) : c.Takes (items ++ [item]) := by
  intro before item' after hsplit
  rcases List.eq_nil_or_concat' after with rfl | ⟨after, last, rfl⟩
  · obtain ⟨rfl, hlast⟩ := List.append_inj' hsplit rfl
    rw [← List.singleton_inj.mp hlast]
    exact hitem
  · rw [← List.cons_append, ← List.append_assoc] at hsplit
    exact h before item' after (List.append_inj' hsplit rfl).1

/-- Items in order, the first of which is refused or comes to be taken, are split alike. -/
theorem split_unique {taken taken' : List Shown} {item item' : Shown} {rest rest' : List Shown}
    {r r' : Refusal} (hsplit : taken ++ item :: rest = taken' ++ item' :: rest')
    (htakes : c.Takes taken) (htakes' : c.Takes taken') (hr : c.shows taken item = some r)
    (hr' : c.shows taken' item' = some r') : taken = taken' ∧ item = item' := by
  rcases List.append_eq_append_iff.mp hsplit with ⟨more, hmore, hrest⟩ | ⟨more, hmore, hrest⟩
  · cases more with
    | nil =>
      rw [List.append_nil] at hmore
      exact ⟨hmore.symm, (List.cons.inj hrest).1⟩
    | cons first more =>
      -- What was refused would have been taken on the way further.
      obtain ⟨rfl, -⟩ := List.cons.inj hrest
      cases (htakes' taken item more hmore).symm.trans hr
  · cases more with
    | nil =>
      rw [List.append_nil] at hmore
      exact ⟨hmore, (List.cons.inj hrest).1.symm⟩
    | cons first more =>
      obtain ⟨rfl, -⟩ := List.cons.inj hrest
      cases (htakes taken' item' more hmore).symm.trans hr'

theorem Refuses.unique {items : List Shown} {text : String} {taken taken' : List Shown}
    {r r' : Refusal} (h : c.Refuses items text taken r) (h' : c.Refuses items text taken' r') :
    taken = taken' ∧ r = r' := by
  cases h with
  | item split takes refused =>
    cases h' with
    | item split' takes' refused' =>
      obtain ⟨rfl, rfl⟩ := split_unique (split.symm.trans split') takes takes' refused refused'
      exact ⟨rfl, Option.some.inj (refused.symm.trans refused')⟩
    | text takes' nonempty refused' => cases (takes' _ _ _ split).symm.trans refused
  | text takes nonempty refused =>
    cases h' with
    | item split' takes' refused' => cases (takes _ _ _ split').symm.trans refused'
    | text takes' nonempty' refused' =>
      exact ⟨rfl, Option.some.inj (refused.symm.trans refused')⟩

/-- One item by itself is taken or refused. -/
theorem not_refuses_item_iff {item : Shown} :
    (∀ taken r, ¬c.Refuses [item] "" taken r) ↔ c.shows [] item = none := by
  constructor
  · intro h
    cases hitem : c.shows [] item with
    | none => rfl
    | some r => exact absurd (.item rfl c.takes_nil hitem) (h [] r)
  · intro hitem taken r h
    cases h with
    | item split takes refused =>
      cases taken with
      | nil =>
        cases split
        cases hitem.symm.trans refused
      | cons first taken => simp at split
    | text takes nonempty refused => exact nonempty rfl

/-- A text by itself is taken or refused. -/
theorem not_refuses_text_iff {text : String} (nonempty : text ≠ "") :
    (∀ taken r, ¬c.Refuses [] text taken r) ↔ c.writes text = none := by
  constructor
  · intro h
    cases htext : c.writes text with
    | none => rfl
    | some r => exact absurd (.text c.takes_nil nonempty htext) (h [] r)
  · intro htext taken r h
    cases h with
    | item split takes refused => simp at split
    | text takes nonempty refused => cases htext.symm.trans refused

theorem print_cases (items : List Shown) {before : List Shown} (h : c.Takes before) :
    (∃ taken item rest r, before ++ items = taken ++ item :: rest ∧ c.Takes taken ∧
        c.shows taken item = some r ∧ c.print before items = (taken, some r)) ∨
      c.Takes (before ++ items) ∧ c.print before items = (before ++ items, none) := by
  induction items generalizing before with
  | nil =>
    rw [List.append_nil]
    exact .inr ⟨h, rfl⟩
  | cons item rest ih =>
    rw [print]
    cases hitem : c.shows before item with
    | some r => exact .inl ⟨before, item, rest, r, rfl, h, hitem, rfl⟩
    | none =>
      have hnext := ih (h.concat hitem)
      rw [List.append_assoc, List.singleton_append] at hnext
      exact hnext

end Console

namespace Outcome

/-- The command is ended by the console, which has taken some of the items. -/
def Refused (o : Outcome) (taken : List Shown) (r : Refusal) : Prop :=
  o.exit = 1 ∧ o.escaped = some (.refusal r) ∧ o.shown = taken ∧ o.written = ""

variable {console : Console} {o : Outcome}

/-- Of what there is to say something is refused, and that is the end, or all is taken. -/
theorem on_cases (console : Console) (o : Outcome) :
    (∃ taken r, console.Refuses o.shown o.written taken r ∧
        o.on console = ⟨1, taken, "", o.notes, some (.refusal r)⟩) ∨
      (∀ taken r, ¬console.Refuses o.shown o.written taken r) ∧ o.on console = o := by
  rcases Console.print_cases o.shown console.takes_nil with
    ⟨taken, item, rest, r, hsplit, htakes, hitem, hprint⟩ | ⟨htakes, hprint⟩
  · refine .inl ⟨taken, r, .item hsplit htakes hitem, ?_⟩
    rw [on, hprint]
  · rw [List.nil_append] at htakes hprint
    have hitems : ∀ taken r, console.Refuses o.shown o.written taken r →
        o.written ≠ "" ∧ taken = o.shown ∧ console.writes o.written = some r := by
      intro taken r h
      cases h with
      | item split takes refused => cases (htakes _ _ _ split).symm.trans refused
      | text takes nonempty refused => exact ⟨nonempty, rfl, refused⟩
    by_cases hempty : o.written = ""
    · refine .inr ⟨fun taken r h => (hitems taken r h).1 hempty, ?_⟩
      rw [on, hprint]
      simp only [hempty, if_true]
    · cases htext : console.writes o.written with
      | some r =>
        refine .inl ⟨o.shown, r, .text htakes hempty htext, ?_⟩
        rw [on, hprint]
        simp only [hempty, if_false, htext]
      | none =>
        refine .inr ⟨fun taken r h => ?_, ?_⟩
        · cases htext.symm.trans (hitems taken r h).2.2
        · rw [on, hprint]
          simp only [hempty, if_false, htext]

theorem refused_on_iff (h : ∀ r, o.escaped ≠ some (.refusal r)) {taken : List Shown}
    {r : Refusal} :
    (o.on console).Refused taken r ↔ console.Refuses o.shown o.written taken r := by
  rcases on_cases console o with ⟨taken', r', hrefuses, hon⟩ | ⟨hnone, hon⟩
  · rw [hon]
    constructor
    · rintro ⟨-, hr, rfl, -⟩
      cases hr
      exact hrefuses
    · intro h'
      obtain ⟨rfl, rfl⟩ := hrefuses.unique h'
      exact ⟨rfl, rfl, rfl, rfl⟩
  · rw [hon]
    constructor
    · rintro ⟨-, hr, -⟩
      exact absurd hr (h r)
    · intro h'
      exact absurd h' (hnone taken r)

/-- A console that takes everything leaves everything as it is. -/
theorem on_keeping (o : Outcome) : o.on .keeping = o := by
  rcases on_cases .keeping o with ⟨_, _, hrefuses, -⟩ | ⟨-, hon⟩
  · cases hrefuses with
    | item split takes refused => cases refused
    | text takes nonempty refused => cases refused
  · exact hon

end Outcome

end Command

end Estree
