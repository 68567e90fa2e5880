import Estree.Json.Reader
import Estree.Proofs.Log
import Mathlib.Data.List.TakeDrop

/-!
The reader stage by stage.

What stands between quotes is read one part after another, `parts_eq`, and a number as a
sign, whole digits, a fraction and an exponent, `number_eq`.  Lists and objects are read in
the same stages: what comes after the bracket, `opening`, and after each member, `next`.
-/

namespace Estree

namespace Json

/-! ### Text -/

/-- The code unit that four digits at the front of a text write, if the text goes on. -/
def unit? (s : List Letter) : Option (Nat × List Letter) :=
  match s.take 4 with
  | [a, b, d, e] =>
    if s.drop 4 = [] then none else (codeUnit? a b d e).map fun n => (n, s.drop 4)
  | _ => none

/-- What the front of a text is within quotes. -/
inductive Step where
  | close (rest : List Letter)
  | part (p : Part) (rest : List Letter)
  | stop (flaw : Flaw)

/-- What stands after a backslash. -/
def escape : List Letter → Step
  | [] => .stop .openString
  | k :: t =>
    if k = 'u' then
      match unit? t with
      | some (n, r) => .part (.unit n) r
      | none => .stop .codeUnit
    else
      match escaped? k with
      | some c => .part (.letter c) t
      | none => .stop .escape

def step : List Letter → Step
  | [] => .stop .openString
  | l :: r =>
    if l = '"' then .close r
    else if l = '\\' then escape r
    else if l.code < 0x20 then .stop .control
    else .part (.letter l) r

/-- Parts are read one after another up to the closing quote. -/
theorem parts_eq (opened : List Letter) (past : List Part) (s : List Letter) :
    match step s with
    | .close r => parts opened past s = .ok (past, r)
    | .part p r => parts opened past s = parts opened (p :: past) r
    | .stop flaw => ∃ left, parts opened past s = .error (.flaw flaw left) := by
  fun_cases parts opened past s with
  | case1 => exact ⟨_, rfl⟩
  | case2 _ r => simp [step]
  | case3 => exact ⟨_, rfl⟩
  | case4 _ a b d e f t n hn => simp [step, escape, unit?, hn]
  | case5 _ a b d e f t hn => simp [step, escape, unit?, hn, flawed]
  | case6 _ t hshort =>
    have hnone : unit? t = none := by
      rcases t with _ | ⟨a, _ | ⟨b, _ | ⟨d, _ | ⟨e, _ | ⟨f, t⟩⟩⟩⟩⟩
      case cons.cons.cons.cons.cons => exact absurd rfl (hshort a b d e f t)
      all_goals rfl
    simp [step, escape, hnone, flawed]
  | case7 _ k t _ hu c hc => simp [step, escape, show k ≠ 'u' from hu, hc]
  | case8 _ k t _ hu hc => simp [step, escape, show k ≠ 'u' from hu, hc, flawed]
  | case9 _ l r hquote hslash hcontrol => simp [step, hquote, hslash, hcontrol, flawed]
  | case10 _ l r hquote hslash hcontrol => simp [step, hquote, hslash, hcontrol]

/-! ### Numbers -/

/-- The sign of an exponent, which may be left out. -/
def sign : List Letter → Bool × List Letter
  | [] => (false, [])
  | l :: r => if l = '-' then (true, r) else if l = '+' then (false, r) else (false, l :: r)

/-- The sign of a number, which is written only if it is minus. -/
def minus : List Letter → Bool × List Letter
  | [] => (false, [])
  | l :: r => if l = '-' then (true, r) else (false, l :: r)

/-- What a number comes to. -/
def worth (negative : Bool) (ds : List Letter) (frac : Option (List Letter)) (e : Option Int) :
    Except Problem Value :=
  match frac, e with
  | none, none => whole negative ds
  | frac, e =>
    let fs := frac.getD []
    .ok (.float (.ofDecimal negative (natOf (ds ++ fs)) (e.getD 0 - fs.length)))

theorem digits_cons (l : Letter) (r : List Letter) :
    digits (l :: r) = if isDigit l then (l :: (digits r).1, (digits r).2) else ([], l :: r) := by
  simp only [digits, List.span_eq_takeWhile_dropWhile]
  cases h : isDigit l <;> simp [h]

theorem fraction_point (r : List Letter) :
    fraction (.char '.' :: r) =
      if (digits r).1 = [] then (none, .char '.' :: r) else (some (digits r).1, (digits r).2) := by
  rw [fraction]
  cases digits r with
  | mk ds t => cases ds <;> rfl

theorem fraction_of_ne {l : Letter} (h : l ≠ '.') (r : List Letter) :
    fraction (l :: r) = (none, l :: r) := by
  rw [fraction]
  intro t ht
  exact h (List.cons.inj ht).1

theorem power_eq (s : List Letter) (negative : Bool) (r : List Letter) :
    exponent.power s negative r =
      if (digits r).1 = [] then (none, s)
      else (some (if negative then -(natOf (digits r).1 : Int) else natOf (digits r).1),
        (digits r).2) := by
  rw [exponent.power]
  cases digits r with
  | mk ds t => cases ds <;> rfl

theorem exponent_mark {l : Letter} (h : l = 'e' ∨ l = 'E') (r : List Letter) :
    exponent (l :: r) = exponent.power (l :: r) (sign r).1 (sign r).2 := by
  rcases r with _ | ⟨k, t⟩
  · rcases h with rfl | rfl <;> rfl
  · by_cases hminus : k = '-'
    · rcases h with rfl | rfl <;> subst hminus <;> rfl
    · by_cases hplus : k = '+'
      · rcases h with rfl | rfl <;> subst hplus <;> rfl
      · have hsign : sign (k :: t) = (false, k :: t) := by rw [sign, if_neg hminus, if_neg hplus]
        rw [hsign]
        rcases h with rfl | rfl
        all_goals
          rw [exponent]
          · exact fun _ ht => hminus (List.cons.inj ht).1
          · exact fun _ ht => hplus (List.cons.inj ht).1

theorem exponent_of_ne {l : Letter} (h : ¬(l = 'e' ∨ l = 'E')) (r : List Letter) :
    exponent (l :: r) = (none, l :: r) := by
  rw [exponent]
  · intro t ht
    exact h (.inl (List.cons.inj ht).1)
  · intro t ht
    exact h (.inr (List.cons.inj ht).1)

theorem wholePart_of_ne {l : Letter} (h : l ≠ '0') (r : List Letter) :
    wholePart (l :: r) = if isDigit l then some (l :: (digits r).1, (digits r).2) else none := by
  rw [wholePart, digits_cons]
  · cases isDigit l <;> rfl
  · intro t ht
    exact h (List.cons.inj ht).1

/-- The number after its sign. -/
def numeral (s : List Letter) (negative : Bool) (r : List Letter) : Result Value :=
  match wholePart r with
  | none => flawed .value s
  | some (ds, r) =>
    (worth negative ds (fraction r).1 (exponent (fraction r).2).1).map fun v =>
      (v, (exponent (fraction r).2).2)

theorem worth_eq (negative : Bool) (ds r : List Letter) :
    (match fraction r with
    | (frac, r) =>
      match frac, exponent r with
      | none, (none, t) => (whole negative ds).map fun v => (v, t)
      | frac, (e, t) =>
        let fs := frac.getD []
        .ok (.float (.ofDecimal negative (natOf (ds ++ fs)) (e.getD 0 - fs.length)), t)) =
      (worth negative ds (fraction r).1 (exponent (fraction r).2).1).map fun v =>
        (v, (exponent (fraction r).2).2) := by
  cases fraction r with
  | mk frac t =>
    dsimp only
    cases exponent t with
    | mk e u => cases frac <;> cases e <;> rfl

theorem number_eq (s : List Letter) : number s = numeral s (minus s).1 (minus s).2 := by
  rcases s with _ | ⟨l, t⟩
  · rfl
  by_cases h : l = '-'
  · subst h
    rw [minus, if_pos rfl, number, numeral]
    dsimp only
    cases wholePart t with
    | none => rfl
    | some p => exact worth_eq true p.1 p.2
  · rw [minus, if_neg h, number, numeral]
    · dsimp only
      cases wholePart (l :: t) with
      | none => rfl
      | some p => exact worth_eq false p.1 p.2
    · exact fun _ ht => h (List.cons.inj ht).1

/-! ### Values -/

section Stages

variable {α : Type}

/-- After an opening bracket: the closing one, or more. -/
def opening (close : Char) (none : α) (more : List Letter → Result α) : List Letter → Result α
  | [] => more []
  | l :: t => if l = .char close then .ok (none, t) else more (l :: t)

/-- After a member: the closing bracket, or a comma and more. -/
def next (close : Char) (done : α) (more : List Letter → Result α) : List Letter → Result α
  | [] => flawed .comma []
  | l :: t =>
    if l = .char close then .ok (done, t)
    else if l = ',' then more (skipBlank t)
    else flawed .comma (l :: t)

/-- After a name: a colon, and more. -/
def property (more : List Letter → Result α) : List Letter → Result α
  | [] => flawed .colon []
  | l :: t => if l = ':' then more (skipBlank t) else flawed .colon (l :: t)

end Stages

theorem value_quote (fuel : Nat) (r : List Letter) :
    value (fuel + 1) (.char '"' :: r) = (string r).map fun p => (.text p.1, p.2) := rfl

theorem value_list (fuel : Nat) (r : List Letter) :
    value (fuel + 1) (.char '[' :: r) =
      opening ']' (.list []) (fun t => (items fuel [] t).map fun p => (.list p.1, p.2))
        (skipBlank r) := by
  rw [value]
  rcases skipBlank r with _ | ⟨l, t⟩
  · rfl
  · by_cases hclose : l = ']'
    · subst hclose
      rfl
    · rw [opening, if_neg hclose]
      split
      · exact absurd (List.cons.inj ‹_›).1 hclose
      · rfl

theorem value_object (fuel : Nat) (r : List Letter) :
    value (fuel + 1) (.char '\x7b' :: r) =
      opening '\x7d' (.mapping [])
        (fun t => (members fuel .empty t).map fun p => (.mapping p.1.entries, p.2))
        (skipBlank r) := by
  rw [value]
  rcases skipBlank r with _ | ⟨l, t⟩
  · rfl
  · by_cases hclose : l = '\x7d'
    · subst hclose
      rfl
    · rw [opening, if_neg hclose]
      split
      · exact absurd (List.cons.inj ‹_›).1 hclose
      · rfl

theorem value_scalar (fuel : Nat) {s : List Letter} (hquote : s.head? ≠ some (.char '"'))
    (hlist : s.head? ≠ some (.char '[')) (hobject : s.head? ≠ some (.char '\x7b')) :
    value (fuel + 1) s = scalar s := by
  rw [value]
  · rintro r rfl
    exact hquote rfl
  · rintro r rfl
    exact hlist rfl
  · rintro r rfl
    exact hobject rfl

theorem items_succ (fuel : Nat) (past : List Value) (s : List Letter) :
    items (fuel + 1) past s = (value fuel s).bind fun p =>
      next ']' (p.1 :: past).reverse (items fuel (p.1 :: past)) (skipBlank p.2) := by
  rw [items]
  show (value fuel s).bind _ = _
  congr 1
  funext ⟨v, r⟩
  dsimp only
  rcases skipBlank r with _ | ⟨l, t⟩
  · rfl
  · by_cases hclose : l = ']'
    · subst hclose
      rfl
    · by_cases hcomma : l = ','
      · subst hcomma
        rfl
      · rw [next, if_neg hclose, if_neg hcomma]
        split
        · exact absurd (List.cons.inj ‹_›).1 hclose
        · exact absurd (List.cons.inj ‹_›).1 hcomma
        · rfl

theorem members_succ (fuel : Nat) (past : Dict Text Value) (l : Letter) (r : List Letter) :
    members (fuel + 1) past (l :: r) =
      if l = '"' then (string r).bind fun n =>
        (property (value fuel) (skipBlank n.2)).bind fun p =>
          next '\x7d' (past.put n.1 p.1) (members fuel (past.put n.1 p.1)) (skipBlank p.2)
      else flawed .name (l :: r) := by
  by_cases hquote : l = '"'
  · subst hquote
    rw [members, if_pos rfl]
    show (string r).bind _ = _
    congr 1
    funext ⟨name, r⟩
    dsimp only
    rcases skipBlank r with _ | ⟨k, t⟩
    · rfl
    · by_cases hcolon : k = ':'
      · subst hcolon
        show (value fuel (skipBlank t)).bind _ = (value fuel (skipBlank t)).bind _
        congr 1
        funext ⟨v, r⟩
        rcases skipBlank r with _ | ⟨k, u⟩
        · rfl
        · by_cases hclose : k = '\x7d'
          · subst hclose
            rfl
          · by_cases hcomma : k = ','
            · subst hcomma
              rfl
            · rw [next, if_neg hclose, if_neg hcomma]
              split
              · exact absurd (List.cons.inj ‹_›).1 hclose
              · exact absurd (List.cons.inj ‹_›).1 hcomma
              · rfl
      · rw [property, if_neg hcolon]
        split
        · exact absurd (List.cons.inj ‹_›).1 hcolon
        · rfl
  · rw [members, if_neg hquote]
    exact fun _ h => hquote (List.cons.inj h).1

/-- After the value of a document: nothing. -/
def finish (v : Value) : List Letter → Except Problem Value
  | [] => .ok v
  | t => flawed .extra t

theorem read_of_unmarked {s : List Letter} (h : s.head? ≠ some (.char '\uFEFF')) :
    read s = (value (2 * s.length + 1) (skipBlank s)).bind fun p =>
      finish p.1 (skipBlank p.2) := by
  rw [read]
  · show (value _ _).bind _ = _
    congr 1
  · rintro t rfl
    exact h rfl

end Json

end Estree
