import Estree.Node
import Estree.Proofs.Dict
import Estree.Proofs.Json.Reader

/-!
Objects as texts write them.

A text may write the same name again and again.  The object that is read has the table of
all that is written, so it has the last value of each name, `members_writes`, and nothing
but an object is a node, `writes_of_isNode`.
-/

namespace Estree

namespace Json

/-- The properties that an object writes one after another, from its first name on, and what
stands behind its closing bracket. -/
inductive Writes : List Letter → List (Text × Value) → List Letter → Prop
  | last {fuel : Nat} {name : Text} {v : Value} {r r₁ r₂ r₃ t : List Letter}
    (hname : string r = .ok (name, r₁)) (hcolon : skipBlank r₁ = .char ':' :: r₂)
    (hvalue : value fuel (skipBlank r₂) = .ok (v, r₃))
    (hclose : skipBlank r₃ = .char '\x7d' :: t) : Writes (.char '"' :: r) [(name, v)] t
  | more {fuel : Nat} {name : Text} {v : Value} {pairs : List (Text × Value)}
    {r r₁ r₂ r₃ t u : List Letter}
    (hname : string r = .ok (name, r₁)) (hcolon : skipBlank r₁ = .char ':' :: r₂)
    (hvalue : value fuel (skipBlank r₂) = .ok (v, r₃))
    (hcomma : skipBlank r₃ = .char ',' :: t) (hrest : Writes (skipBlank t) pairs u) :
    Writes (.char '"' :: r) ((name, v) :: pairs) u

section Stages

variable {α : Type} {s r : List Letter} {a : α} {more : List Letter → Result α}

theorem property_eq_ok (h : property more s = .ok (a, r)) :
    ∃ t, s = .char ':' :: t ∧ more (skipBlank t) = .ok (a, r) := by
  rcases s with _ | ⟨l, t⟩
  · cases h
  · rw [property] at h
    split at h
    · rename_i hl
      exact ⟨t, congrArg (List.cons · t) hl, h⟩
    · cases h

theorem next_eq_ok {close : Char} {done : α} (h : next close done more s = .ok (a, r)) :
    (s = .char close :: r ∧ a = done) ∨
      ∃ t, s = .char ',' :: t ∧ more (skipBlank t) = .ok (a, r) := by
  rcases s with _ | ⟨l, t⟩
  · cases h
  · rw [next] at h
    split at h
    · rename_i hl
      cases h
      exact .inl ⟨congrArg (List.cons · r) hl, rfl⟩
    · split at h
      · rename_i hl
        exact .inr ⟨t, congrArg (List.cons · t) hl, h⟩
      · cases h

theorem opening_eq_ok {close : Char} {none : α} (h : opening close none more s = .ok (a, r)) :
    (s = .char close :: r ∧ a = none) ∨ more s = .ok (a, r) := by
  rcases s with _ | ⟨l, t⟩
  · exact .inr h
  · rw [opening] at h
    split at h
    · rename_i hl
      cases h
      exact .inl ⟨congrArg (List.cons · r) hl, rfl⟩
    · exact .inr h

end Stages

/-- The properties of an object are put into its table in the order in which they are
written. -/
theorem members_writes {fuel : Nat} {past d : Dict Text Value} {s r : List Letter}
    (h : members fuel past s = .ok (d, r)) : ∃ pairs, Writes s pairs r ∧ d = past.putAll pairs := by
  induction fuel generalizing past s with
  | zero => cases h
  | succ fuel ih =>
    rcases s with _ | ⟨l, s⟩
    · cases h
    rw [members_succ] at h
    split at h
    · rename_i hquote
      subst hquote
      obtain ⟨⟨name, r₁⟩, hname, h⟩ := Logged.bind_eq_ok.mp h
      obtain ⟨⟨v, r₃⟩, hproperty, h⟩ := Logged.bind_eq_ok.mp h
      obtain ⟨r₂, hcolon, hvalue⟩ := property_eq_ok hproperty
      rcases next_eq_ok h with ⟨hclose, rfl⟩ | ⟨t, hcomma, hrest⟩
      · exact ⟨[(name, v)], .last hname hcolon hvalue hclose, rfl⟩
      · obtain ⟨pairs, hpairs, rfl⟩ := ih hrest
        exact ⟨(name, v) :: pairs, .more hname hcolon hvalue hcomma hpairs, rfl⟩
    · cases h

theorem not_isNode_worth {negative : Bool} {ds : List Letter} {frac : Option (List Letter)}
    {e : Option Int} {v : Value} (h : worth negative ds frac e = .ok v) : v.isNode = false := by
  unfold worth at h
  split at h
  · rw [whole] at h
    split at h
    · cases h
    · cases h
      rfl
  · cases h
    rfl

theorem not_isNode_scalar {s r : List Letter} {v : Value} (h : scalar s = .ok (v, r)) :
    v.isNode = false := by
  have hwords : ∀ e ∈ words, e.2.isNode = false := by
    intro e he
    simp only [words, List.mem_cons, List.not_mem_nil, or_false] at he
    rcases he with rfl | rfl | rfl | rfl | rfl | rfl <;> rfl
  unfold scalar at h
  split at h
  · rename_i e hfind
    cases h
    exact hwords _ (List.mem_of_find?_eq_some hfind)
  · rw [number_eq, numeral] at h
    split at h
    · cases h
    · obtain ⟨w, hworth, hv⟩ := Logged.map_eq_ok.mp h
      cases hv
      exact not_isNode_worth hworth

/-- Only an object is a node, and what it writes is all that it has. -/
theorem writes_of_isNode {fuel : Nat} {v : Value} {s r : List Letter}
    (h : value fuel s = .ok (v, r)) (hv : v.isNode = true) :
    ∃ t pairs, s = .char '\x7b' :: t ∧ Writes (skipBlank t) pairs r ∧
      v = .mapping (Dict.ofList pairs).entries := by
  cases fuel with
  | zero => cases h
  | succ fuel =>
    rcases s with _ | ⟨l, s⟩
    · cases h
    by_cases hquote : l = '"'
    · subst hquote
      rw [value_quote] at h
      obtain ⟨_, -, hr⟩ := Logged.map_eq_ok.mp h
      cases hr
      cases hv
    by_cases hlist : l = '['
    · subst hlist
      rw [value_list] at h
      rcases opening_eq_ok h with ⟨-, rfl⟩ | h
      · cases hv
      · obtain ⟨_, -, hr⟩ := Logged.map_eq_ok.mp h
        cases hr
        cases hv
    by_cases hobject : l = '\x7b'
    · subst hobject
      rw [value_object] at h
      rcases opening_eq_ok h with ⟨-, rfl⟩ | h
      · cases hv
      · obtain ⟨⟨d, r'⟩, hmembers, hr⟩ := Logged.map_eq_ok.mp h
        cases hr
        obtain ⟨pairs, hpairs, rfl⟩ := members_writes hmembers
        exact ⟨s, pairs, rfl, hpairs, rfl⟩
    rw [value_scalar fuel (by simpa using hquote) (by simpa using hlist) (by simpa using hobject)]
      at h
    rw [not_isNode_scalar h] at hv
    cases hv

theorem finish_eq_ok {v w : Value} {s : List Letter} (h : finish v s = .ok w) : s = [] ∧ v = w := by
  cases s with
  | nil => exact ⟨rfl, Except.ok.inj h⟩
  | cons l s => cases h

/-- The type of a node that has such properties is the last one of them. -/
theorem exists_type {pairs : List (Text × Value)}
    (h : (Value.mapping (Dict.ofList pairs).entries).isNode = true) :
    ∃ name, pairs.reverse.lookup ("type" : Text) = some (.text name) := by
  have htype : (((Dict.ofList pairs).get? "type").getD .null).text?.isSome = true := h
  rw [Dict.get?_ofList] at htype
  cases hlast : pairs.reverse.lookup ("type" : Text) with
  | none =>
    rw [hlast] at htype
    cases htype
  | some v =>
    rw [hlast] at htype
    cases v with
    | text name => exact ⟨name, rfl⟩
    | _ => cases htype

/-- A document that is a node is an object, and the last `type` that it writes is text. -/
theorem read_isNode {s : List Letter} {v : Value} (h : read s = .ok v) (hv : v.isNode = true) :
    ∃ r pairs t name, skipBlank s = .char '\x7b' :: r ∧ Writes (skipBlank r) pairs t ∧
      skipBlank t = [] ∧ v = .mapping (Dict.ofList pairs).entries ∧
      pairs.reverse.lookup ("type" : Text) = some (.text name) := by
  have hmark : s.head? ≠ some (.char '\uFEFF') := by
    intro hmark
    obtain ⟨t, rfl⟩ := List.head?_eq_some_iff.mp hmark
    cases h
  rw [read_of_unmarked hmark] at h
  obtain ⟨⟨w, t⟩, hvalue, hfinish⟩ := Logged.bind_eq_ok.mp h
  obtain ⟨hnil, rfl⟩ := finish_eq_ok hfinish
  obtain ⟨r, pairs, hs, hpairs, rfl⟩ := writes_of_isNode hvalue hv
  obtain ⟨name, hname⟩ := exists_type hv
  exact ⟨r, pairs, t, name, hs, hpairs, hnil, rfl, hname⟩

end Json

end Estree
