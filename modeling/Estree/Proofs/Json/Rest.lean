import Estree.Proofs.Json.Reader
import Mathlib.Data.List.Infix

/-!
What is left of a text after something is read off its front.

It is an end of the text, `leaves_value`, so it is no longer than the text.
-/

namespace Estree

namespace Json

theorem skipBlank_suffix (s : List Letter) : skipBlank s <:+ s := List.dropWhile_suffix isBlank

/-- Of a text that is read an end is left. -/
def Leaves {α : Type} (x : Result α) (s : List Letter) : Prop :=
  ∀ a r, x = .ok (a, r) → r <:+ s

section Leaves

variable {α β : Type} {x : Result α} {s t : List Letter}

theorem leaves_ok {a : α} (h : t <:+ s) : Leaves (.ok (a, t)) s := by
  rintro _ _ ⟨⟩
  exact h

theorem leaves_error (p : Problem) : Leaves (.error p : Result α) s := fun _ _ h => nomatch h

theorem Leaves.trans (hx : Leaves x t) (ht : t <:+ s) : Leaves x s :=
  fun a r h => (hx a r h).trans ht

theorem Leaves.map (hx : Leaves x s) (f : α → β) : Leaves (x.map fun p => (f p.1, p.2)) s := by
  cases x with
  | error p => exact leaves_error p
  | ok p => exact leaves_ok (hx p.1 p.2 rfl)

theorem Leaves.bind (hx : Leaves x s) {f : α × List Letter → Result β}
    (hf : ∀ a r, Leaves (f (a, r)) r) : Leaves (x.bind f) s := by
  cases x with
  | error p => exact leaves_error p
  | ok p => exact (hf p.1 p.2).trans (hx p.1 p.2 rfl)

theorem leaves_opening (close : Char) (none : α) {more : List Letter → Result α}
    (hmore : ∀ t, Leaves (more t) t) (s : List Letter) : Leaves (opening close none more s) s := by
  rcases s with _ | ⟨l, t⟩
  · exact hmore []
  · rw [opening]
    split
    · exact leaves_ok (List.suffix_cons l t)
    · exact hmore (l :: t)

theorem leaves_next (close : Char) (done : α) {more : List Letter → Result α}
    (hmore : ∀ t, Leaves (more t) t) (s : List Letter) : Leaves (next close done more s) s := by
  rcases s with _ | ⟨l, t⟩
  · exact leaves_error _
  · rw [next]
    split
    · exact leaves_ok (List.suffix_cons l t)
    · split
      · exact (hmore _).trans ((skipBlank_suffix t).trans (List.suffix_cons l t))
      · exact leaves_error _

theorem leaves_property {more : List Letter → Result α} (hmore : ∀ t, Leaves (more t) t)
    (s : List Letter) : Leaves (property more s) s := by
  rcases s with _ | ⟨l, t⟩
  · exact leaves_error _
  · rw [property]
    split
    · exact (hmore _).trans ((skipBlank_suffix t).trans (List.suffix_cons l t))
    · exact leaves_error _

end Leaves

theorem digits_suffix (s : List Letter) : (digits s).2 <:+ s := by
  rw [digits, List.span_eq_takeWhile_dropWhile]
  exact List.dropWhile_suffix isDigit

theorem fraction_suffix (s : List Letter) : (fraction s).2 <:+ s := by
  rcases s with _ | ⟨l, r⟩
  · exact List.suffix_rfl
  · by_cases h : l = '.'
    · subst h
      rw [fraction_point]
      split
      · exact List.suffix_rfl
      · exact (digits_suffix r).trans (List.suffix_cons _ r)
    · rw [fraction_of_ne h]

theorem sign_suffix (s : List Letter) : (sign s).2 <:+ s := by
  rcases s with _ | ⟨l, r⟩
  · exact List.suffix_rfl
  · rw [sign]
    split
    · exact List.suffix_cons l r
    · split
      · exact List.suffix_cons l r
      · exact List.suffix_rfl

theorem minus_suffix (s : List Letter) : (minus s).2 <:+ s := by
  rcases s with _ | ⟨l, r⟩
  · exact List.suffix_rfl
  · rw [minus]
    split
    · exact List.suffix_cons l r
    · exact List.suffix_rfl

theorem exponent_suffix (s : List Letter) : (exponent s).2 <:+ s := by
  rcases s with _ | ⟨l, r⟩
  · exact List.suffix_rfl
  · by_cases h : l = 'e' ∨ l = 'E'
    · rw [exponent_mark h, power_eq]
      split
      · exact List.suffix_rfl
      · exact ((digits_suffix _).trans (sign_suffix r)).trans (List.suffix_cons l r)
    · rw [exponent_of_ne h]

theorem wholePart_suffix {s ds r : List Letter} (h : wholePart s = some (ds, r)) : r <:+ s := by
  rcases s with _ | ⟨l, t⟩
  · cases h
  · by_cases hzero : l = '0'
    · subst hzero
      cases h
      exact List.suffix_cons _ r
    · rw [wholePart_of_ne hzero] at h
      split at h
      · cases h
        exact (digits_suffix t).trans (List.suffix_cons l t)
      · cases h

theorem leaves_number (s : List Letter) : Leaves (number s) s := by
  rw [number_eq, numeral]
  cases hwhole : wholePart (minus s).2 with
  | none => exact leaves_error _
  | some p =>
    obtain ⟨ds, t⟩ := p
    have hdigits : t <:+ s := (wholePart_suffix hwhole).trans (minus_suffix s)
    dsimp only
    cases worth (minus s).1 ds (fraction t).1 (exponent (fraction t).2).1 with
    | error p => exact leaves_error p
    | ok v => exact leaves_ok ((exponent_suffix _).trans ((fraction_suffix t).trans hdigits))

theorem leaves_scalar (s : List Letter) : Leaves (scalar s) s := by
  rw [scalar]
  split
  · exact leaves_ok (List.drop_suffix _ s)
  · exact leaves_number s

/-- What is left after a part, or after the closing quote. -/
def Step.rest? : Step → Option (List Letter)
  | .close r => some r
  | .part _ r => some r
  | .stop _ => none

theorem unit?_suffix {s r : List Letter} {n : Nat} (h : unit? s = some (n, r)) : r <:+ s := by
  unfold unit? at h
  split at h
  · split at h
    · cases h
    · obtain ⟨_, -, hr⟩ := Option.map_eq_some_iff.mp h
      cases hr
      exact List.drop_suffix 4 s
  · cases h

theorem escape_suffix {s r : List Letter} (h : (escape s).rest? = some r) : r <:+ s := by
  rcases s with _ | ⟨k, t⟩
  · cases h
  · rw [escape] at h
    split at h
    · split at h
      · rename_i n u hunit
        cases h
        exact (unit?_suffix hunit).trans (List.suffix_cons k t)
      · cases h
    · split at h
      · cases h
        exact List.suffix_cons k _
      · cases h

theorem step_suffix {s r : List Letter} (h : (step s).rest? = some r) :
    r <:+ s ∧ r.length < s.length := by
  rcases s with _ | ⟨l, t⟩
  · cases h
  · have htail : r <:+ t := by
      rw [step] at h
      split at h
      · cases h
        exact List.suffix_rfl
      · split at h
        · exact escape_suffix h
        · split at h
          · cases h
          · cases h
            exact List.suffix_rfl
    exact ⟨htail.trans (List.suffix_cons l t), Nat.lt_succ_of_le htail.length_le⟩

theorem leaves_parts (opened : List Letter) (past : List Part) (s : List Letter) :
    Leaves (parts opened past s) s := by
  induction hn : s.length using Nat.strongRecOn generalizing s past with
  | ind n ih =>
    have heq := parts_eq opened past s
    cases hstep : step s with
    | close t =>
      rw [hstep] at heq
      rw [heq]
      exact leaves_ok (step_suffix (by rw [hstep]; rfl)).1
    | part p t =>
      rw [hstep] at heq
      obtain ⟨hsuffix, hlt⟩ : t <:+ s ∧ t.length < s.length :=
        step_suffix (by rw [hstep]; rfl)
      rw [heq]
      exact (ih t.length (hn ▸ hlt) _ t rfl).trans hsuffix
    | stop flaw =>
      rw [hstep] at heq
      obtain ⟨left, hleft⟩ := heq
      rw [hleft]
      exact leaves_error _

theorem string_eq (s : List Letter) :
    string s = (parts s [] s).map fun p => (⟨joinParts p.1.reverse⟩, p.2) := by
  rw [string]
  cases parts s [] s <;> rfl

theorem leaves_string (s : List Letter) : Leaves (string s) s := by
  rw [string_eq]
  exact (leaves_parts s [] s).map fun past => (⟨joinParts past.reverse⟩ : Text)

/-- Reading a value, the members of a list or the properties of an object leaves an end of
the text. -/
theorem leaves_value (fuel : Nat) :
    (∀ s, Leaves (value fuel s) s) ∧ (∀ past s, Leaves (items fuel past s) s) ∧
      ∀ past s, Leaves (members fuel past s) s := by
  induction fuel with
  | zero =>
    exact ⟨fun _ => leaves_error _, fun _ _ => leaves_error _, fun _ _ => leaves_error _⟩
  | succ fuel ih =>
    obtain ⟨ihvalue, ihitems, ihmembers⟩ := ih
    refine ⟨fun s => ?_, fun past s => ?_, fun past s => ?_⟩
    · rcases s with _ | ⟨l, r⟩
      · exact leaves_error _
      have htail : skipBlank r <:+ l :: r := (skipBlank_suffix r).trans (List.suffix_cons l r)
      by_cases hquote : l = '"'
      · subst hquote
        rw [value_quote]
        exact ((leaves_string r).map Value.text).trans (List.suffix_cons _ r)
      by_cases hlist : l = '['
      · subst hlist
        rw [value_list]
        exact (leaves_opening _ _ (fun t => (ihitems [] t).map Value.list) _).trans htail
      by_cases hobject : l = '\x7b'
      · subst hobject
        rw [value_object]
        have hmembers : ∀ t, Leaves ((members fuel .empty t).map fun p =>
            (Value.mapping p.1.entries, p.2)) t := fun t =>
          (ihmembers .empty t).map fun d => Value.mapping d.entries
        exact (leaves_opening _ _ hmembers _).trans htail
      rw [value_scalar fuel (by simpa using hquote) (by simpa using hlist) (by simpa using hobject)]
      exact leaves_scalar (l :: r)
    · rw [items_succ]
      exact (ihvalue s).bind fun v r =>
        (leaves_next _ _ (ihitems (v :: past)) _).trans (skipBlank_suffix r)
    · rcases s with _ | ⟨l, r⟩
      · exact leaves_error _
      rw [members_succ]
      split
      · refine Leaves.trans ?_ (List.suffix_cons l r)
        refine (leaves_string r).bind fun name t => ?_
        refine Leaves.bind ((leaves_property ihvalue _).trans (skipBlank_suffix t)) fun v u => ?_
        exact (leaves_next _ _ (ihmembers (past.put name v)) _).trans (skipBlank_suffix u)
      · exact leaves_error _

end Json

end Estree
