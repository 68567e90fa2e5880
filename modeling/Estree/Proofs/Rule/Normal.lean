import Estree.Proofs.Grammar.Fold
import Estree.Proofs.Rule.Fields

/-!
The rule that a table comes to.

A table gives each field of a rule some entries, under either of its names, and the last of
them stands, in the form in which rules keep it: `entry_ofFields`.  So a rule depends on
nothing but what each field is given, and the table that names every field of a rule comes
to that rule.  Main statement: `table_settled`.
-/

namespace Estree

namespace Rule

namespace Field

/-- The form in which rules keep what a table gives a field: lists of children and of marks
written out, and anything else as it is. -/
def kept (e : Entry) : Field → Entry
  | .children => .list e.members
  | .operators | .operands => .list (e.members.map fun m => (Mark.ofEntry m).toEntry)
  | _ => e

end Field

/-! ### Rules field by field -/

/-- A field of a rule as a table may write it. -/
def entry (r : Rule) : Field → Entry
  | .children => .list r.children
  | .operators => .list (r.operators.map Mark.toEntry)
  | .operands => .list (r.operands.map Mark.toEntry)
  | .lloc => r.lloc
  | .cyclomatic => r.cyclomatic
  | .newScope => r.newScope
  | .dependencies => r.dependencies
  | .assignableName => r.assignableName
  | .methodName => r.methodName

theorem map_ofEntry_toEntry (ms : List Mark) : (ms.map Mark.toEntry).map Mark.ofEntry = ms := by
  rw [List.map_map]
  exact List.map_id' ms

theorem toEntry_list_inj {ms ms' : List Mark}
    (h : Entry.list (ms.map Mark.toEntry) = .list (ms'.map Mark.toEntry)) : ms = ms' := by
  rw [← map_ofEntry_toEntry ms, Entry.list.inj h, map_ofEntry_toEntry]

theorem ext_entry {r r' : Rule} (h : ∀ f, r.entry f = r'.entry f) : r = r' := by
  cases r
  cases r'
  rw [Rule.mk.injEq]
  exact ⟨Entry.list.inj (h .children), toEntry_list_inj (h .operators),
    toEntry_list_inj (h .operands), h .lloc, h .cyclomatic, h .newScope, h .dependencies,
    h .assignableName, h .methodName⟩

theorem entry_set_self (r : Rule) (f : Field) (e : Entry) : (r.set f e).entry f = f.kept e := by
  cases f with
  | operators => exact congrArg Entry.list (List.map_map ..)
  | operands => exact congrArg Entry.list (List.map_map ..)
  | _ => rfl

theorem entry_set_of_ne {f g : Field} (h : f ≠ g) (r : Rule) (e : Entry) :
    (r.set g e).entry f = r.entry f := by
  cases f <;> cases g <;> first | rfl | exact absurd rfl h

theorem kept_entry (r : Rule) (f : Field) : f.kept (r.entry f) = r.entry f := by
  cases f with
  | operators => exact congrArg Entry.list (List.map_map ..)
  | operands => exact congrArg Entry.list (List.map_map ..)
  | _ => rfl

end Rule

namespace Draft

open Rule (Field)

variable {table table' : List (Value × Entry)}

/-! ### What a table gives -/

/-- The field that a name in a table stands for. -/
def fieldOf? (name : Value) : Option Field := name.text?.bind Field.ofName?

/-- The entries that a table gives a field, under any of its names, in order. -/
def given (table : List (Value × Entry)) (f : Field) : List Entry :=
  (table.filter fun row => fieldOf? row.1 = some f).map Prod.snd

/-- The entry of a field that stands. -/
def last? (table : List (Value × Entry)) (f : Field) : Option Entry := (given table f).getLast?

/-- The lines on the names in a table that are no fields. -/
def complaints (table : List (Value × Entry)) : List Text :=
  (table.filter fun row => fieldOf? row.1 = none).map fun row =>
    "Ignoring unknown syntax field " ++ row.1.quoted

theorem fieldOf?_eq_some {name : Value} {f : Field} :
    fieldOf? name = some f ↔
      name = .text f.name ∨ ∃ s, f.otherName? = some s ∧ name = .text s := by
  constructor
  · intro h
    cases name with
    | text s =>
      rcases Field.ofName?_eq_some.mp h with rfl | hother
      · exact .inl rfl
      · exact .inr ⟨s, hother, rfl⟩
    | _ => cases h
  · rintro (rfl | ⟨s, hother, rfl⟩)
    · exact Field.ofName?_eq_some.mpr (.inl rfl)
    · exact Field.ofName?_eq_some.mpr (.inr hother)

theorem given_append (as bs : List (Value × Entry)) (f : Field) :
    given (as ++ bs) f = given as f ++ given bs f := by
  rw [given, List.filter_append, List.map_append]
  rfl

theorem given_cons (row : Value × Entry) (rows : List (Value × Entry)) (f : Field) :
    given (row :: rows) f =
      if fieldOf? row.1 = some f then row.2 :: given rows f else given rows f := by
  by_cases h : fieldOf? row.1 = some f <;> simp [given, h]

theorem foldl_named? (r : Rule) (row : Value × Entry) :
    ([row].filterMap named?).foldl Rule.setNamed r =
      (fieldOf? row.1).elim r fun f => r.set f row.2 := by
  obtain ⟨name, e⟩ := row
  cases name with
  | text s =>
    show r.setNamed (s, e) = (Field.ofName? s).elim r fun f => r.set f e
    unfold Rule.setNamed
    cases Field.ofName? s <;> rfl
  | _ => rfl

/-- Each field keeps the last entry that it is given. -/
theorem entry_ofFields (table : List (Value × Entry)) (f : Field) :
    (Rule.ofFields (table.filterMap named?)).entry f =
      ((last? table f).map f.kept).getD (Rule.default.entry f) := by
  -- From the end, where the entry that stands is.
  induction table using List.reverseRecOn with
  | nil => rfl
  | append_singleton rows row ih =>
    have hlast : Rule.ofFields ((rows ++ [row]).filterMap named?) =
        ([row].filterMap named?).foldl Rule.setNamed (Rule.ofFields (rows.filterMap named?)) := by
      rw [List.filterMap_append, Rule.ofFields_eq_foldl, List.foldl_append,
        ← Rule.ofFields_eq_foldl]
    rw [hlast, foldl_named?, last?, given_append, given_cons]
    cases hfield : fieldOf? row.1 with
    | none =>
      simp only [reduceCtorEq, if_false]
      show Rule.entry (Rule.ofFields _) f = ((given rows f ++ []).getLast?.map _).getD _
      rw [List.append_nil]
      exact ih
    | some g =>
      by_cases hg : g = f
      · subst hg
        rw [if_pos rfl]
        show Rule.entry (Rule.set _ g row.2) g = ((given rows g ++ [row.2]).getLast?.map _).getD _
        rw [List.getLast?_concat]
        exact Rule.entry_set_self _ g row.2
      · have hne : some g ≠ some f := fun h => hg (Option.some.inj h)
        rw [if_neg hne]
        show Rule.entry (Rule.set _ g row.2) f = ((given rows f ++ []).getLast?.map _).getD _
        rw [List.append_nil, Rule.entry_set_of_ne (Ne.symm hg)]
        exact ih

/-! ### The normal form -/

/-- The elements that an entry stands for: none for null, those of a list, and anything else
stands for itself. -/
inductive Elements : Entry → List Entry → Prop
  | absent : Elements .absent []
  | list (es : List Entry) : Elements (.list es) es
  | values (vs : List Value) : Elements (.data (.list vs)) (vs.map .data)
  | alone (e : Entry) (hnull : e ≠ .absent) (hlist : ∀ es, e ≠ .list es)
      (hvalues : ∀ vs, e ≠ .data (.list vs)) : Elements e [e]

theorem elements_members (e : Entry) : Elements e e.members := by
  cases e with
  | data v =>
    cases v with
    | null => exact .absent
    | list vs => exact .values vs
    | _ => exact .alone _ nofun nofun nofun
  | list es => exact .list es
  | _ => exact .alone _ nofun nofun nofun

/-- The rule that a table describes, field by field. -/
structure Describes (table : List (Value × Entry)) (r : Rule) : Prop where
  children : Elements ((last? table .children).getD .absent) r.children
  operators : ∃ es, Elements ((last? table .operators).getD .absent) es ∧
    r.operators = es.map Mark.ofEntry
  operands : ∃ es, Elements ((last? table .operands).getD .absent) es ∧
    r.operands = es.map Mark.ofEntry
  lloc : r.lloc = (last? table .lloc).getD (.data (.int 0))
  cyclomatic : r.cyclomatic = (last? table .cyclomatic).getD (.data (.int 0))
  newScope : r.newScope = (last? table .newScope).getD .absent
  dependencies : r.dependencies = (last? table .dependencies).getD .absent
  assignableName : r.assignableName = (last? table .assignableName).getD .absent
  methodName : r.methodName = (last? table .methodName).getD .absent

/-- Two tables that give the fields the same: entries of different fields change places, and
entries of no field come or go. -/
inductive Rearranged : List (Value × Entry) → List (Value × Entry) → Prop
  | refl (table : List (Value × Entry)) : Rearranged table table
  | swap (before after : List (Value × Entry)) (x y : Value × Entry)
      (h : fieldOf? x.1 ≠ fieldOf? y.1) :
      Rearranged (before ++ x :: y :: after) (before ++ y :: x :: after)
  | add (before after : List (Value × Entry)) (x : Value × Entry) (h : fieldOf? x.1 = none) :
      Rearranged (before ++ after) (before ++ x :: after)
  | drop (before after : List (Value × Entry)) (x : Value × Entry) (h : fieldOf? x.1 = none) :
      Rearranged (before ++ x :: after) (before ++ after)
  | trans {a b c : List (Value × Entry)} (hab : Rearranged a b) (hbc : Rearranged b c) :
      Rearranged a c

/-- A rule as a description that names every field. -/
def ofRule (r : Rule) : Description := .ofFields r.toFields

theorem children_ofFields (table : List (Value × Entry)) :
    (Rule.ofFields (table.filterMap named?)).children =
      ((last? table .children).getD .absent).members := by
  refine Entry.list.inj ((entry_ofFields table .children).trans ?_)
  cases last? table .children <;> rfl

theorem marks_eq {ms : List Mark} {e? : Option Entry} {f : Field}
    (hkept : ∀ e, f.kept e = .list (e.members.map fun m => (Mark.ofEntry m).toEntry))
    (h : Entry.list (ms.map Mark.toEntry) = (e?.map f.kept).getD (.list [])) :
    ms = (e?.getD .absent).members.map Mark.ofEntry := by
  refine Rule.toEntry_list_inj (h.trans ?_)
  rw [List.map_map]
  cases e? with
  | none => rfl
  | some e => exact hkept e

theorem entry_of_kept {f : Field} (hkept : ∀ e, f.kept e = e) (table : List (Value × Entry)) :
    (Rule.ofFields (table.filterMap named?)).entry f =
      (last? table f).getD (Rule.default.entry f) := by
  rw [entry_ofFields]
  cases last? table f with
  | none => rfl
  | some e => exact hkept e

theorem describes_ofFields (table : List (Value × Entry)) :
    Describes table (Rule.ofFields (table.filterMap named?)) where
  children := children_ofFields table ▸ elements_members _
  operators := ⟨_, elements_members _,
    marks_eq (f := .operators) (fun _ => rfl) (entry_ofFields table .operators)⟩
  operands := ⟨_, elements_members _,
    marks_eq (f := .operands) (fun _ => rfl) (entry_ofFields table .operands)⟩
  lloc := entry_of_kept (f := .lloc) (fun _ => rfl) table
  cyclomatic := entry_of_kept (f := .cyclomatic) (fun _ => rfl) table
  newScope := entry_of_kept (f := .newScope) (fun _ => rfl) table
  dependencies := entry_of_kept (f := .dependencies) (fun _ => rfl) table
  assignableName := entry_of_kept (f := .assignableName) (fun _ => rfl) table
  methodName := entry_of_kept (f := .methodName) (fun _ => rfl) table

theorem ofFields_congr (h : ∀ f, given table' f = given table f) :
    Rule.ofFields (table'.filterMap named?) = Rule.ofFields (table.filterMap named?) := by
  refine Rule.ext_entry fun f => ?_
  rw [entry_ofFields, entry_ofFields, last?, h, last?]

theorem given_of_rearranged (h : Rearranged table table') (f : Field) :
    given table' f = given table f := by
  induction h with
  | refl table => rfl
  | swap before after x y hne =>
    simp only [given_append, given_cons]
    by_cases hx : fieldOf? x.1 = some f
    · have hy : fieldOf? y.1 ≠ some f := fun hy => hne (hx.trans hy.symm)
      simp only [if_pos hx, if_neg hy]
    · simp only [if_neg hx]
  | add before after x hnone => simp [given_append, given_cons, hnone]
  | drop before after x hnone => simp [given_append, given_cons, hnone]
  | trans _ _ ihab ihbc => exact ihbc.trans ihab

theorem remarks_eq (table : Description) :
    ((Draft.fields table).ignored.map Remark.ignored).map Remark.text = complaints table.rows := by
  rw [List.map_map, ignored, unknownFields, List.filter_map, List.map_map, complaints]
  refine congrArg (List.map _) (List.filter_congr fun row _ => ?_)
  show (fieldOf? row.1).isNone = decide (fieldOf? row.1 = none)
  cases fieldOf? row.1 <;> rfl

theorem ends_normalize (table : Description) :
    (Draft.fields table).normalize.Ends (.ok (.ofFields (table.rows.filterMap named?)))
      (complaints table.rows) := by
  rw [← remarks_eq]
  exact Grammar.ends_normalize rfl

theorem fieldOf?_name (f : Field) : fieldOf? (.text f.name) = some f :=
  fieldOf?_eq_some.mpr (.inl rfl)

theorem rows_ofRule (r : Rule) :
    (ofRule r).rows = Field.all.map fun f => (.text f.name, r.entry f) := rfl

theorem given_ofRule (r : Rule) (f : Field) : given (ofRule r).rows f = [r.entry f] := by
  rw [rows_ofRule, given, List.filter_map, List.map_map]
  have hkept : Field.all.filter ((fun row : Value × Entry => decide (fieldOf? row.1 = some f)) ∘
      fun g => (.text g.name, r.entry g)) = Field.all.filter fun g => g = f := by
    refine List.filter_congr fun g _ => ?_
    simp [fieldOf?_name]
  rw [hkept]
  cases f <;> rfl

theorem complaints_ofRule (r : Rule) : complaints (ofRule r).rows = [] := by
  rw [rows_ofRule, complaints, List.map_eq_nil_iff, List.filter_eq_nil_iff]
  intro row hrow
  obtain ⟨f, -, rfl⟩ := List.mem_map.mp hrow
  simp [fieldOf?_name]

theorem ofFields_ofRule (r : Rule) : Rule.ofFields ((ofRule r).rows.filterMap named?) = r := by
  refine Rule.ext_entry fun f => ?_
  rw [entry_ofFields, last?, given_ofRule]
  exact Rule.kept_entry r f

/-- Every table comes to the rule that it describes, with one line for each name that is no
field, in order.  A table that gives the fields the same comes to the same rule, and the
table that names every field of a rule comes to that rule without a word. -/
theorem table_settled (table : Description) :
    ∃ r, (Draft.fields table).normalize.Ends (.ok r) (complaints table.rows) ∧
      Describes table.rows r ∧
      (∀ table' : Description, Rearranged table.rows table'.rows →
        (Draft.fields table').normalize.Ends (.ok r) (complaints table'.rows)) ∧
      (Draft.fields (ofRule r)).normalize.Ends (.ok r) [] := by
  refine ⟨_, ends_normalize table, describes_ofFields table.rows, fun table' h => ?_, ?_⟩
  · rw [← ofFields_congr (given_of_rearranged h)]
    exact ends_normalize table'
  · have hends := ends_normalize (ofRule (.ofFields (table.rows.filterMap named?)))
    rwa [ofFields_ofRule, complaints_ofRule] at hends

end Draft

end Estree
