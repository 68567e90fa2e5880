import Estree.Proofs.Json.Rest
import Estree.Text.Utf8
import Mathlib.Data.List.Find

/-!
Line ends and the reader.

Carriage returns and line feeds are blank between values and may not stand in anything else,
so writing one for the other changes nothing but places.  Each stage of the reader comes to
the same on both texts, `Agree`, and leaves texts that are again the same but for line ends.
Main statement: `read_sameLines`.
-/

namespace Estree

namespace Json

/-- The second text is the first one with line ends written as line feeds, all or some. -/
inductive SameLines : List Letter → List Letter → Prop
  | nil : SameLines [] []
  | letter (l : Letter) {s t : List Letter} (h : SameLines s t) : SameLines (l :: s) (l :: t)
  | cr {s t : List Letter} (h : SameLines s t) : SameLines (.char '\r' :: s) (.char '\n' :: t)
  | crlf {s t : List Letter} (h : SameLines s t) :
    SameLines (.char '\r' :: .char '\n' :: s) (.char '\n' :: t)

theorem sameLines_unixLines (s : List Char) :
    SameLines (s.map .char) ((Text.unixLines s).map .char) := by
  fun_induction Text.unixLines s with
  | case1 rest ih => exact .crlf ih
  | case2 rest _ ih => exact .cr ih
  | case3 c rest _ _ ih => exact .letter _ ih
  | case4 => exact .nil

/-- Line feeds and carriage returns. -/
def isLineEnd (l : Letter) : Bool := l = '\r' || l = '\n'

section Front

variable {s t : List Letter}

theorem SameLines.nil_iff (h : SameLines s t) : s = [] ↔ t = [] := by cases h <;> simp

/-- Two such texts are both at their end, start with one letter, or are both at a line end. -/
theorem SameLines.front (h : SameLines s t) :
    (s = [] ∧ t = []) ∨ (∃ l r u, s = l :: r ∧ t = l :: u ∧ SameLines r u) ∨
      ∃ r u, s = .char '\r' :: r ∧ t = .char '\n' :: u := by
  cases h with
  | nil => exact .inl ⟨rfl, rfl⟩
  | letter l h => exact .inr (.inl ⟨l, _, _, rfl, rfl, h⟩)
  | cr h => exact .inr (.inr ⟨_, _, rfl, rfl⟩)
  | crlf h => exact .inr (.inr ⟨_, _, rfl, rfl⟩)

/-- The fronts of two such texts are the same, or there is a line end in both. -/
theorem SameLines.take_cases (h : SameLines s t) (n : Nat) :
    (s.take n = t.take n ∧ SameLines (s.drop n) (t.drop n)) ∨
      (∃ l ∈ s.take n, isLineEnd l) ∧ ∃ l ∈ t.take n, isLineEnd l := by
  induction n generalizing s t with
  | zero => exact .inl ⟨rfl, h⟩
  | succ n ih =>
    cases h with
    | nil => exact .inl ⟨rfl, .nil⟩
    | letter l h =>
      rcases ih h with ⟨htake, hdrop⟩ | ⟨⟨a, ha, hend⟩, b, hb, hend'⟩
      · exact .inl ⟨congrArg (List.cons l) htake, hdrop⟩
      · exact .inr ⟨⟨a, List.mem_cons_of_mem l ha, hend⟩, b, List.mem_cons_of_mem l hb, hend'⟩
    | cr h => exact .inr ⟨⟨_, List.mem_cons_self, rfl⟩, _, List.mem_cons_self, rfl⟩
    | crlf h => exact .inr ⟨⟨_, List.mem_cons_self, rfl⟩, _, List.mem_cons_self, rfl⟩

theorem skipBlank_cons (l : Letter) (r : List Letter) :
    skipBlank (l :: r) = if isBlank l then skipBlank r else l :: r := List.dropWhile_cons

theorem SameLines.skipBlank (h : SameLines s t) : SameLines (skipBlank s) (skipBlank t) := by
  induction h with
  | nil => exact .nil
  | letter l h ih =>
    rw [skipBlank_cons, skipBlank_cons]
    split
    · exact ih
    · exact .letter l h
  | cr h ih => exact ih
  | crlf h ih => exact ih

theorem length_skipBlank_le (s : List Letter) : (skipBlank s).length ≤ s.length :=
  (skipBlank_suffix s).length_le

end Front

/-! ### Results -/

/-- The same keeps two texts from being read, wherever it is in each. -/
inductive SameProblem : Problem → Problem → Prop
  | flaw (flaw : Flaw) (m n : Nat) : SameProblem (.flaw flaw m) (.flaw flaw n)
  | longNumber (digits : Nat) : SameProblem (.longNumber digits) (.longNumber digits)

theorem SameProblem.refl (p : Problem) : SameProblem p p := by
  cases p with
  | flaw f m => exact .flaw f m m
  | longNumber digits => exact .longNumber digits

/-- What is read is the same, and what is left is the same but for line ends. -/
def Alike {α : Type} (p q : α × List Letter) : Prop := p.1 = q.1 ∧ SameLines p.2 q.2

/-- Both texts are read alike, or have the same problem. -/
inductive Agree {α : Type} : Result α → Result α → Prop
  | ok {p q : α × List Letter} (h : Alike p q) : Agree (.ok p) (.ok q)
  | error {p q : Problem} (h : SameProblem p q) : Agree (.error p) (.error q)

namespace Agree

variable {α β : Type} {x y : Result α}

theorem flaw (f : Flaw) (m n : Nat) :
    Agree (.error (.flaw f m) : Result α) (.error (.flaw f n)) := .error (.flaw f m n)

theorem map (h : Agree x y) (f : α → β) :
    Agree (x.map fun p => (f p.1, p.2)) (y.map fun p => (f p.1, p.2)) := by
  cases h with
  | ok h => exact .ok ⟨congrArg f h.1, h.2⟩
  | error h => exact .error h

theorem bind (h : Agree x y) {f g : α × List Letter → Result β}
    (hfg : ∀ a s t, x = .ok (a, s) → y = .ok (a, t) → SameLines s t → Agree (f (a, s)) (g (a, t))) :
    Agree (x.bind f) (y.bind g) := by
  cases h with
  | @ok p q h =>
    obtain ⟨a, s⟩ := p
    obtain ⟨b, t⟩ := q
    obtain ⟨rfl, h⟩ := h
    exact hfg a s t rfl rfl h
  | error h => exact .error h

end Agree

/-! ### Stages -/

section Stages

variable {α : Type} {s t : List Letter} {f g : List Letter → Result α}

theorem agree_opening {close : Char} (hclose : isLineEnd (.char close) = false) (none : α)
    (h : SameLines s t) (hmore : Agree (f s) (g t)) :
    Agree (opening close none f s) (opening close none g t) := by
  have hend : ∀ l : Letter, isLineEnd l = true → l ≠ .char close := by
    rintro l hl rfl
    rw [hclose] at hl
    cases hl
  obtain ⟨rfl, rfl⟩ | ⟨l, r, u, rfl, rfl, hrest⟩ | ⟨r, u, rfl, rfl⟩ := h.front
  · exact hmore
  · rw [opening, opening]
    split
    · exact .ok ⟨rfl, hrest⟩
    · exact hmore
  · rw [opening, opening, if_neg (hend _ rfl), if_neg (hend _ rfl)]
    exact hmore

theorem agree_next {close : Char} (hclose : isLineEnd (.char close) = false) (done : α)
    (h : SameLines s t)
    (hmore : ∀ s' t', SameLines s' t' → s'.length < s.length → t'.length < t.length →
      Agree (f s') (g t')) :
    Agree (next close done f s) (next close done g t) := by
  have hend : ∀ l : Letter, isLineEnd l = true → l ≠ .char close ∧ l ≠ .char ',' := by
    intro l hl
    constructor
    · rintro rfl
      rw [hclose] at hl
      cases hl
    · rintro rfl
      cases hl
  obtain ⟨rfl, rfl⟩ | ⟨l, r, u, rfl, rfl, hrest⟩ | ⟨r, u, rfl, rfl⟩ := h.front
  · exact .flaw .comma 0 0
  · rw [next, next]
    split
    · exact .ok ⟨rfl, hrest⟩
    · split
      · exact hmore _ _ hrest.skipBlank (Nat.lt_succ_of_le (length_skipBlank_le r))
          (Nat.lt_succ_of_le (length_skipBlank_le u))
      · exact .flaw .comma _ _
  · rw [next, next, if_neg (hend _ rfl).1, if_neg (hend _ rfl).1, if_neg (hend _ rfl).2,
      if_neg (hend _ rfl).2]
    exact .flaw .comma _ _

theorem agree_property (h : SameLines s t)
    (hmore : ∀ s' t', SameLines s' t' → s'.length < s.length → t'.length < t.length →
      Agree (f s') (g t')) :
    Agree (property f s) (property g t) := by
  obtain ⟨rfl, rfl⟩ | ⟨l, r, u, rfl, rfl, hrest⟩ | ⟨r, u, rfl, rfl⟩ := h.front
  · exact .flaw .colon 0 0
  · rw [property, property]
    split
    · exact hmore _ _ hrest.skipBlank (Nat.lt_succ_of_le (length_skipBlank_le r))
        (Nat.lt_succ_of_le (length_skipBlank_le u))
    · exact .flaw .colon _ _
  · exact .flaw .colon _ _

end Stages

/-! ### Text -/

section Text

variable {s t : List Letter}

theorem hexValue?_lineEnd {l : Letter} (h : isLineEnd l) : hexValue? l = none := by
  have hl : l = '\r' ∨ l = '\n' := by simpa [isLineEnd] using h
  rcases hl with rfl | rfl <;> rfl

theorem unit?_lineEnd (h : ∃ l ∈ s.take 4, isLineEnd l) : unit? s = none := by
  obtain ⟨l, hl, hend⟩ := h
  have hnone := hexValue?_lineEnd hend
  unfold unit?
  split
  · rename_i a b d e hs
    rw [hs] at hl
    simp only [List.mem_cons, List.not_mem_nil, or_false] at hl
    have hunit : codeUnit? a b d e = none := by
      rcases hl with rfl | rfl | rfl | rfl <;> simp [codeUnit?, hnone]
    simp [hunit]
  · rfl

theorem unit?_cases (h : SameLines s t) :
    (unit? s = none ∧ unit? t = none) ∨
      ∃ n r u, unit? s = some (n, r) ∧ unit? t = some (n, u) ∧ SameLines r u := by
  rcases h.take_cases 4 with ⟨htake, hdrop⟩ | ⟨hs, ht⟩
  · have hnil := hdrop.nil_iff
    unfold unit?
    rw [htake]
    split
    · by_cases ht : t.drop 4 = []
      · exact .inl ⟨if_pos (hnil.mpr ht), if_pos ht⟩
      · rw [if_neg (mt hnil.mp ht), if_neg ht]
        rename_i a b d e _
        cases codeUnit? a b d e with
        | none => exact .inl ⟨rfl, rfl⟩
        | some n => exact .inr ⟨n, _, _, rfl, rfl, hdrop⟩
    · exact .inl ⟨rfl, rfl⟩
  · exact .inl ⟨unit?_lineEnd hs, unit?_lineEnd ht⟩

/-- Within quotes both texts go on alike. -/
inductive Step.Agree : Step → Step → Prop
  | close {r u : List Letter} (h : SameLines r u) : Step.Agree (.close r) (.close u)
  | part (p : Part) {r u : List Letter} (h : SameLines r u) : Step.Agree (.part p r) (.part p u)
  | stop (flaw : Flaw) : Step.Agree (.stop flaw) (.stop flaw)

theorem agree_escape (h : SameLines s t) : (escape s).Agree (escape t) := by
  obtain ⟨rfl, rfl⟩ | ⟨k, s, t, rfl, rfl, hrest⟩ | ⟨s, t, rfl, rfl⟩ := h.front
  · exact .stop .openString
  · rw [escape, escape]
    split
    · rcases unit?_cases hrest with ⟨hs, ht⟩ | ⟨n, r, u, hs, ht, hrest⟩
      · rw [hs, ht]
        exact .stop .codeUnit
      · rw [hs, ht]
        exact .part (.unit n) hrest
    · cases escaped? k with
      | none => exact .stop .escape
      | some c => exact .part (.letter c) hrest
  · exact .stop .escape

theorem agree_step (h : SameLines s t) : (step s).Agree (step t) := by
  obtain ⟨rfl, rfl⟩ | ⟨l, r, u, rfl, rfl, hrest⟩ | ⟨r, u, rfl, rfl⟩ := h.front
  · exact .stop .openString
  · rw [step, step]
    split
    · exact .close hrest
    · split
      · exact agree_escape hrest
      · split
        · exact .stop .control
        · exact .part (.letter l) hrest
  · exact .stop .control

theorem agree_parts (opened opened' : List Letter) (past : List Part) (h : SameLines s t) :
    Agree (parts opened past s) (parts opened' past t) := by
  -- An escape takes several letters, so the induction is on how many are left.
  induction hn : s.length using Nat.strongRecOn generalizing s t past with
  | ind n ih =>
    have hs := parts_eq opened past s
    have ht := parts_eq opened' past t
    have hstep := agree_step h
    cases hs' : step s <;> cases ht' : step t <;> rw [hs', ht'] at hstep <;> cases hstep
    case close.close.close r u hrest =>
      rw [hs'] at hs
      rw [ht'] at ht
      rw [hs, ht]
      exact .ok ⟨rfl, hrest⟩
    case part.part.part p r u hrest =>
      rw [hs'] at hs
      rw [ht'] at ht
      rw [hs, ht]
      have hlt : r.length < s.length := (step_suffix (by rw [hs']; rfl)).2
      exact ih r.length (hn ▸ hlt) _ hrest rfl
    case stop.stop.stop flaw =>
      rw [hs'] at hs
      rw [ht'] at ht
      obtain ⟨m, hs⟩ := hs
      obtain ⟨n, ht⟩ := ht
      rw [hs, ht]
      exact .flaw flaw m n

theorem agree_string (h : SameLines s t) : Agree (string s) (string t) := by
  rw [string_eq, string_eq]
  exact (agree_parts s t [] h).map fun past => (⟨joinParts past.reverse⟩ : Text)

end Text

/-! ### Numbers and words -/

section Scalars

variable {s t : List Letter}

theorem alike_digits (h : SameLines s t) : Alike (digits s) (digits t) := by
  induction h with
  | nil => exact ⟨rfl, .nil⟩
  | letter l h ih =>
    rw [digits_cons, digits_cons]
    split
    · exact ⟨congrArg (List.cons l) ih.1, ih.2⟩
    · exact ⟨rfl, .letter l h⟩
  | cr h => exact ⟨rfl, .cr h⟩
  | crlf h => exact ⟨rfl, .crlf h⟩

theorem alike_fraction (h : SameLines s t) : Alike (fraction s) (fraction t) := by
  obtain ⟨rfl, rfl⟩ | ⟨l, r, u, rfl, rfl, hrest⟩ | ⟨r, u, rfl, rfl⟩ := h.front
  · exact ⟨rfl, h⟩
  · by_cases hl : l = '.'
    · subst hl
      obtain ⟨hdigits, hrest⟩ := alike_digits hrest
      rw [fraction_point, fraction_point, hdigits]
      split
      · exact ⟨rfl, h⟩
      · exact ⟨rfl, hrest⟩
    · rw [fraction_of_ne hl, fraction_of_ne hl]
      exact ⟨rfl, h⟩
  · exact ⟨rfl, h⟩

theorem alike_sign (h : SameLines s t) : Alike (sign s) (sign t) := by
  obtain ⟨rfl, rfl⟩ | ⟨l, r, u, rfl, rfl, hrest⟩ | ⟨r, u, rfl, rfl⟩ := h.front
  · exact ⟨rfl, h⟩
  · rw [sign, sign]
    split
    · exact ⟨rfl, hrest⟩
    · split
      · exact ⟨rfl, hrest⟩
      · exact ⟨rfl, h⟩
  · exact ⟨rfl, h⟩

theorem alike_minus (h : SameLines s t) : Alike (minus s) (minus t) := by
  obtain ⟨rfl, rfl⟩ | ⟨l, r, u, rfl, rfl, hrest⟩ | ⟨r, u, rfl, rfl⟩ := h.front
  · exact ⟨rfl, h⟩
  · rw [minus, minus]
    split
    · exact ⟨rfl, hrest⟩
    · exact ⟨rfl, h⟩
  · exact ⟨rfl, h⟩

theorem alike_exponent (h : SameLines s t) : Alike (exponent s) (exponent t) := by
  obtain ⟨rfl, rfl⟩ | ⟨l, r, u, rfl, rfl, hrest⟩ | ⟨r, u, rfl, rfl⟩ := h.front
  · exact ⟨rfl, h⟩
  · by_cases hl : l = 'e' ∨ l = 'E'
    · obtain ⟨hsign, hrest⟩ := alike_sign hrest
      obtain ⟨hdigits, hrest⟩ := alike_digits hrest
      rw [exponent_mark hl, exponent_mark hl, power_eq, power_eq, hsign, hdigits]
      split
      · exact ⟨rfl, h⟩
      · exact ⟨rfl, hrest⟩
    · rw [exponent_of_ne hl, exponent_of_ne hl]
      exact ⟨rfl, h⟩
  · exact ⟨rfl, h⟩

theorem wholePart_cases (h : SameLines s t) :
    (wholePart s = none ∧ wholePart t = none) ∨
      ∃ ds r u, wholePart s = some (ds, r) ∧ wholePart t = some (ds, u) ∧ SameLines r u := by
  obtain ⟨rfl, rfl⟩ | ⟨l, r, u, rfl, rfl, hrest⟩ | ⟨r, u, rfl, rfl⟩ := h.front
  · exact .inl ⟨rfl, rfl⟩
  · by_cases hl : l = '0'
    · subst hl
      exact .inr ⟨_, _, _, rfl, rfl, hrest⟩
    · obtain ⟨hdigits, hrest⟩ := alike_digits hrest
      rw [wholePart_of_ne hl, wholePart_of_ne hl, hdigits]
      split
      · exact .inr ⟨_, _, _, rfl, rfl, hrest⟩
      · exact .inl ⟨rfl, rfl⟩
  · exact .inl ⟨rfl, rfl⟩

theorem agree_number (h : SameLines s t) : Agree (number s) (number t) := by
  obtain ⟨hminus, hrest⟩ := alike_minus h
  rw [number_eq, number_eq, numeral, numeral, hminus]
  rcases wholePart_cases hrest with ⟨hs, ht⟩ | ⟨ds, r, u, hs, ht, hrest⟩
  · rw [hs, ht]
    exact .flaw .value _ _
  · rw [hs, ht]
    obtain ⟨hfraction, hrest⟩ := alike_fraction hrest
    obtain ⟨hexponent, hrest⟩ := alike_exponent hrest
    dsimp only
    rw [hfraction, hexponent]
    cases worth (minus t).1 ds (fraction u).1 (exponent (fraction u).2).1 with
    | error p => exact .error (.refl p)
    | ok v => exact .ok ⟨rfl, hrest⟩

/-- A word without line ends stands in front of both texts or of neither. -/
theorem isPrefixOf_sameLines {word : List Letter} (hword : ∀ l ∈ word, isLineEnd l = false)
    (h : SameLines s t) :
    word.isPrefixOf s = word.isPrefixOf t ∧
      (word.isPrefixOf s = true → SameLines (s.drop word.length) (t.drop word.length)) := by
  have hnot : ∀ {u : List Letter}, (∃ l ∈ u.take word.length, isLineEnd l) → ¬word <+: u := by
    rintro u ⟨l, hl, hend⟩ hprefix
    rw [← List.prefix_iff_eq_take.mp hprefix] at hl
    rw [hword l hl] at hend
    cases hend
  rcases h.take_cases word.length with ⟨htake, hdrop⟩ | ⟨hs, ht⟩
  · refine ⟨?_, fun _ => hdrop⟩
    rw [Bool.eq_iff_iff, List.isPrefixOf_iff_prefix, List.isPrefixOf_iff_prefix,
      List.prefix_iff_eq_take, List.prefix_iff_eq_take, htake]
  · rw [Bool.eq_iff_iff, List.isPrefixOf_iff_prefix, List.isPrefixOf_iff_prefix]
    exact ⟨iff_of_false (hnot hs) (hnot ht), fun hprefix => absurd hprefix (hnot hs)⟩

theorem agree_scalar (h : SameLines s t) : Agree (scalar s) (scalar t) := by
  have hwords : ∀ e ∈ words, ∀ l ∈ e.1.letters, isLineEnd l = false := by decide
  have hfind : (words.find? fun e => e.1.letters.isPrefixOf s) =
      words.find? fun e => e.1.letters.isPrefixOf t :=
    List.find?_congr fun e he => (isPrefixOf_sameLines (hwords e he) h).1
  unfold scalar
  cases hs : words.find? fun e => e.1.letters.isPrefixOf s with
  | none =>
    rw [← hfind, hs]
    exact agree_number h
  | some e =>
    rw [← hfind, hs]
    have hprefix := List.find?_some hs
    exact .ok ⟨rfl, (isPrefixOf_sameLines (hwords e (List.mem_of_find?_eq_some hs)) h).2 hprefix⟩

end Scalars

/-! ### Values -/

/-- Without the blanks in front of it what is left is no longer than the text was. -/
theorem Leaves.length_skipBlank_le {α : Type} {x : Result α} {s r : List Letter} {a : α}
    (hx : Leaves x s) (h : x = .ok (a, r)) : (skipBlank r).length ≤ s.length :=
  ((skipBlank_suffix r).trans (hx a r h)).length_le

/-- With fuel for each of two such texts the reader comes to the same on both.  Each has a fuel
of its own because a carriage return with its line feed makes the first text longer. -/
theorem agree_value (fuel : Nat) :
    (∀ fuel' s t, SameLines s t → 2 * s.length < fuel → 2 * t.length < fuel' →
      Agree (value fuel s) (value fuel' t)) ∧
    (∀ fuel' past s t, SameLines s t → 2 * s.length + 1 < fuel → 2 * t.length + 1 < fuel' →
      Agree (items fuel past s) (items fuel' past t)) ∧
    ∀ fuel' past s t, SameLines s t → 2 * s.length + 1 < fuel → 2 * t.length + 1 < fuel' →
      Agree (members fuel past s) (members fuel' past t) := by
  induction fuel with
  | zero =>
    exact ⟨fun _ _ _ _ h => absurd h (Nat.not_lt_zero _),
      fun _ _ _ _ _ h => absurd h (Nat.not_lt_zero _),
      fun _ _ _ _ _ h => absurd h (Nat.not_lt_zero _)⟩
  | succ fuel ih =>
    obtain ⟨ihvalue, ihitems, ihmembers⟩ := ih
    refine ⟨fun fuel' s t h hs ht => ?_, fun fuel' past s t h hs ht => ?_,
      fun fuel' past s t h hs ht => ?_⟩
    · obtain ⟨fuel', rfl⟩ := Nat.exists_eq_succ_of_ne_zero (Nat.ne_zero_of_lt ht)
      obtain ⟨rfl, rfl⟩ | ⟨l, r, u, rfl, rfl, hrest⟩ | ⟨r, u, rfl, rfl⟩ := h.front
      · exact .flaw .value _ _
      · have hsblank := length_skipBlank_le r
        have htblank := length_skipBlank_le u
        rw [List.length_cons] at hs ht
        by_cases hquote : l = '"'
        · subst hquote
          rw [value_quote, value_quote]
          exact (agree_string hrest).map Value.text
        by_cases hlist : l = '['
        · subst hlist
          rw [value_list, value_list]
          refine agree_opening rfl _ hrest.skipBlank ?_
          exact (ihitems fuel' [] _ _ hrest.skipBlank (by omega) (by omega)).map Value.list
        by_cases hobject : l = '\x7b'
        · subst hobject
          rw [value_object, value_object]
          refine agree_opening rfl _ hrest.skipBlank ?_
          exact (ihmembers fuel' .empty _ _ hrest.skipBlank (by omega) (by omega)).map
            fun d => Value.mapping d.entries
        have hscalar : ∀ fuel r, value (fuel + 1) (l :: r) = scalar (l :: r) := fun fuel r =>
          value_scalar fuel (by simpa using hquote) (by simpa using hlist) (by simpa using hobject)
        rw [hscalar, hscalar]
        exact agree_scalar h
      · exact .flaw .value _ _
    · obtain ⟨fuel', rfl⟩ := Nat.exists_eq_succ_of_ne_zero (Nat.ne_zero_of_lt ht)
      rw [items_succ, items_succ]
      refine (ihvalue fuel' s t h (by omega) (by omega)).bind fun v r u hr hu hrest => ?_
      have hsrest := ((leaves_value fuel).1 s).length_skipBlank_le hr
      have htrest := ((leaves_value fuel').1 t).length_skipBlank_le hu
      dsimp only
      refine agree_next rfl _ hrest.skipBlank fun s' t' h' hs' ht' => ?_
      exact ihitems fuel' (v :: past) s' t' h' (by omega) (by omega)
    · obtain ⟨fuel', rfl⟩ := Nat.exists_eq_succ_of_ne_zero (Nat.ne_zero_of_lt ht)
      obtain ⟨rfl, rfl⟩ | ⟨l, s, t, rfl, rfl, hrest⟩ | ⟨r, u, rfl, rfl⟩ := h.front
      · exact .flaw .name _ _
      · rw [List.length_cons] at hs ht
        rw [members_succ, members_succ]
        split
        · refine (agree_string hrest).bind fun name r u hr hu hrest => ?_
          have hsrest := (leaves_string s).length_skipBlank_le hr
          have htrest := (leaves_string t).length_skipBlank_le hu
          have hvalue := agree_property hrest.skipBlank fun s' t' h' hs' ht' =>
            ihvalue fuel' s' t' h' (by omega) (by omega)
          refine hvalue.bind fun v r' u' hr' hu' hrest' => ?_
          have hsrest' := (leaves_property (leaves_value fuel).1 _).length_skipBlank_le hr'
          have htrest' := (leaves_property (leaves_value fuel').1 _).length_skipBlank_le hu'
          dsimp only
          refine agree_next rfl _ hrest'.skipBlank fun s' t' h' hs' ht' => ?_
          exact ihmembers fuel' (past.put name v) s' t' h' (by omega) (by omega)
        · exact .flaw .name _ _
      · exact .flaw .name _ _

/-! ### Documents -/

/-- Two texts that are the same but for line ends are the same value, or have the same
problem. -/
theorem read_sameLines {s t : List Letter} (h : SameLines s t) :
    (∃ v, read s = .ok v ∧ read t = .ok v) ∨
      ∃ p q, read s = .error p ∧ read t = .error q ∧ SameProblem p q := by
  by_cases hmark : s.head? = some (.char '\uFEFF')
  · cases h <;> cases hmark
    exact .inr ⟨_, _, rfl, rfl, .flaw .mark _ _⟩
  · have hmark' : t.head? ≠ some (.char '\uFEFF') := by
      cases h with
      | letter l h => exact hmark
      | _ => rintro ⟨⟩
    have hs := length_skipBlank_le s
    have ht := length_skipBlank_le t
    have hvalue := (agree_value (2 * s.length + 1)).1 (2 * t.length + 1) _ _ h.skipBlank
      (by omega) (by omega)
    rw [read_of_unmarked hmark, read_of_unmarked hmark']
    generalize value (2 * s.length + 1) (skipBlank s) = x at hvalue ⊢
    generalize value (2 * t.length + 1) (skipBlank t) = y at hvalue ⊢
    cases hvalue with
    | error hp => exact .inr ⟨_, _, rfl, rfl, hp⟩
    | @ok p q hpq =>
      obtain ⟨v, r⟩ := p
      obtain ⟨w, u⟩ := q
      obtain ⟨rfl, hrest⟩ := hpq
      have hend := hrest.skipBlank
      dsimp only [Except.bind]
      cases hr : skipBlank r with
      | nil =>
        rw [hend.nil_iff.mp hr]
        exact .inl ⟨v, rfl, rfl⟩
      | cons l r' =>
        cases hu : skipBlank u with
        | nil => rw [hend.nil_iff.mpr hu] at hr; cases hr
        | cons k u' => exact .inr ⟨_, _, rfl, rfl, .flaw .extra _ _⟩

end Json

end Estree
