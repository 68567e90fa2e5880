import Estree.Proofs.Grammar.Fold
import Estree.Proofs.Grammar.Standard
import Mathlib.Data.List.Nodup

/-!
Grammars folded from editions.

The tables of the editions have no node type in common, `nodup_types`, so the order in
which they are folded does not matter: a type has the rule of the one row it stands in,
`rule?_ofEditions_eq_some`.  Folding the layers of editions always succeeds, and all of
them together make the standard grammar.
-/

namespace Estree

/-! ### Folding editions -/

/-- A description under text names its fields by that text. -/
theorem Description.filterMap_named? (fields : List (Text × Entry)) :
    (Description.ofFields fields).rows.filterMap Draft.named? = fields := by
  rw [ofFields, List.filterMap_map]
  exact List.filterMap_some

namespace Grammar

/-- A grammar with the rules of the rows of a table written over it. -/
def addRows (g : Grammar) (rows : List (Text × List (Text × Entry))) : Grammar :=
  rows.foldl (fun g row => ⟨g.rules.write (.text row.1) (.text row.1) (.ofFields row.2)⟩) g

/-- The grammar of some editions. -/
def ofEditions (es : List Edition) : Grammar := empty.addRows (es.flatMap Edition.table)

theorem rules_addRows (g : Grammar) (rows : List (Text × List (Text × Entry))) :
    (g.addRows rows).rules = g.rules.writeAll
      (rows.map fun row => (.text row.1, .text row.1, .ofFields row.2)) := by
  induction rows generalizing g with
  | nil => rfl
  | cons row rows ih => exact ih _

theorem rule?_addRows (g : Grammar) (rows : List (Text × List (Text × Entry))) (type : Text) :
    (g.addRows rows).rule? type =
      ((rows.reverse.lookup type).map Rule.ofFields).or (g.rule? type) := by
  have hlookup := Entries.lookup_map (f := Key.text) (fun _ _ => Key.text.inj)
    (fun type fields => (Value.text type, Rule.ofFields fields)) type rows.reverse
  rw [List.map_reverse] at hlookup
  rw [rule?, rules_addRows, Keyed.read?_writeAll, hlookup, Option.map_map]
  rfl

/-- The codes of a text in one number: numbers are compared faster than texts. -/
def number (s : Text) : Nat := s.letters.foldl (fun n l => 0x110000 * n + l.code) 0

theorem nodup_numbers :
    ((Edition.all.flatMap Edition.table).map fun row => number row.1).Nodup := by
  decide +kernel

/-- No node type stands in two tables, or twice in one. -/
theorem nodup_types : ((Edition.all.flatMap Edition.table).map Prod.fst).Nodup := by
  refine List.Nodup.of_map number ?_
  rw [List.map_map]
  exact nodup_numbers

theorem mem_all (e : Edition) : e ∈ Edition.all := by
  cases e <;> decide

theorem nodup_types_table (e : Edition) : (e.table.map Prod.fst).Nodup := by
  have h := nodup_types
  rw [List.map_flatMap, List.nodup_flatMap] at h
  exact h.1 e (mem_all e)

theorem entries_keyed {β : Type} {table : List (Text × β)} (h : (table.map Prod.fst).Nodup) :
    (Edition.keyed table).entries =
      table.map fun row => (.text row.1, (.text row.1, row.2)) := by
  refine Dict.entries_ofList ?_
  rw [List.map_map]
  have hkeys : table.map (Prod.fst ∘ fun row => (Key.text row.1, (Value.text row.1, row.2))) =
      (table.map Prod.fst).map Key.text := by
    rw [List.map_map]
    rfl
  exact hkeys ▸ h.map fun _ _ => Key.text.inj

theorem rows_layer (e : Edition) :
    e.layer.rows = e.table.map fun row => (.text row.1, .text row.1,
      .fields (.ofFields row.2)) := by
  have hnodup : ((e.table.map fun row => (row.1, Draft.fields (.ofFields row.2))).map
      Prod.fst).Nodup := by
    rw [List.map_map]
    exact nodup_types_table e
  have hentries := entries_keyed hnodup
  rw [List.map_map] at hentries
  exact hentries

theorem problem?_layer (e : Edition) : e.layer.problem? = none := by
  refine List.findSome?_eq_none_iff.mpr fun row hrow => ?_
  have hmem : row ∈ e.layer.rows := hrow
  rw [rows_layer] at hmem
  obtain ⟨row, -, rfl⟩ := List.mem_map.mp hmem
  rfl

theorem ruleRows_layer (e : Edition) :
    e.layer.ruleRows = e.table.map fun row => (.text row.1, .text row.1, .ofFields row.2) := by
  rw [Layer.ruleRows, rows_layer, List.map_map]
  refine List.map_congr_left fun row _ => ?_
  show (Key.text row.1, Value.text row.1, Rule.ofFields _) = _
  rw [Description.filterMap_named?]

theorem written_layers (es : List Edition) : written (es.map Edition.layer) = ofEditions es := by
  show Grammar.mk _ = Grammar.mk (ofEditions es).rules
  rw [ofEditions, rules_addRows, List.map_flatMap, List.flatMap_map]
  exact congrArg (fun f => Grammar.mk (Keyed.writeAll .empty (es.flatMap f)))
    (funext ruleRows_layer)

theorem yields_ofLayers (es : List Edition) :
    (ofLayers (es.map Edition.layer)).Yields (ofEditions es) := by
  have hproblem : (es.map Edition.layer).findSome? Layer.problem? = none := by
    refine List.findSome?_eq_none_iff.mpr fun l hl => ?_
    obtain ⟨e, -, rfl⟩ := List.mem_map.mp hl
    exact problem?_layer e
  rw [← written_layers]
  exact (ends_ofLayers hproblem).yields

/-! ### The rules of folded editions -/

theorem mem_rows_all {es : List Edition} {row : Text × List (Text × Entry)}
    (h : row ∈ es.flatMap Edition.table) : row ∈ Edition.all.flatMap Edition.table := by
  obtain ⟨e, -, hrow⟩ := List.mem_flatMap.mp h
  exact List.mem_flatMap.mpr ⟨e, mem_all e, hrow⟩

theorem fields_unique {type : Text} {fields fields' : List (Text × Entry)}
    (h : (type, fields) ∈ Edition.all.flatMap Edition.table)
    (h' : (type, fields') ∈ Edition.all.flatMap Edition.table) : fields = fields' :=
  (Prod.mk.inj (List.inj_on_of_nodup_map nodup_types h h' rfl)).2

/-- A type has the rule of the row that it stands in. -/
theorem rule?_ofEditions_eq_some {es : List Edition} {type : Text} {r : Rule} :
    (ofEditions es).rule? type = some r ↔
      ∃ fields, (type, fields) ∈ es.flatMap Edition.table ∧ Rule.ofFields fields = r := by
  have hempty : empty.rule? type = none := rfl
  rw [ofEditions, rule?_addRows, hempty, Option.or_none, Option.map_eq_some_iff]
  constructor
  · rintro ⟨fields, hl, rfl⟩
    exact ⟨fields, List.mem_reverse.mp (Entries.mem_of_lookup hl), rfl⟩
  · rintro ⟨fields, hm, rfl⟩
    refine ⟨fields, Entries.lookup_eq_some (List.mem_reverse.mpr hm) fun fields' hm' => ?_, rfl⟩
    exact fields_unique (mem_rows_all (List.mem_reverse.mp hm')) (mem_rows_all hm)

/-- Rules of one grammar are rules of another, which may have more. -/
def PartOf (g g' : Grammar) : Prop := ∀ type r, g.rule? type = some r → g'.rule? type = some r

theorem partOf_ofEditions {es es' : List Edition} (h : es ⊆ es') :
    (ofEditions es).PartOf (ofEditions es') := by
  intro type r hr
  obtain ⟨fields, hm, hf⟩ := rule?_ofEditions_eq_some.mp hr
  obtain ⟨e, he, hrow⟩ := List.mem_flatMap.mp hm
  exact rule?_ofEditions_eq_some.mpr ⟨fields, List.mem_flatMap.mpr ⟨e, h he, hrow⟩, hf⟩

theorem ofEditions_all : ofEditions Edition.all = standard := by
  have hkeys : (((Edition.all.flatMap Edition.table).map fun row =>
      (Key.text row.1, Value.text row.1, Rule.ofFields row.2)).map Prod.fst).Nodup := by
    have h := nodup_types.map (f := Key.text) fun _ _ => Key.text.inj
    rw [List.map_map] at h ⊢
    exact h
  have hrules : (ofEditions Edition.all).rules = standard.rules := by
    rw [ofEditions, rules_addRows]
    refine (Keyed.writeAll_empty hkeys).trans ?_
    show _ = Edition.keyed _
    rw [Edition.keyed, List.map_map]
    rfl
  show Grammar.mk (ofEditions Edition.all).rules = Grammar.mk standard.rules
  rw [hrules]

theorem rule?_standard_eq_some {type : Text} {r : Rule} :
    standard.rule? type = some r ↔
      ∃ e : Edition, ∃ fields, (type, fields) ∈ e.table ∧ Rule.ofFields fields = r := by
  rw [← ofEditions_all, rule?_ofEditions_eq_some]
  constructor
  · rintro ⟨fields, hm, hr⟩
    obtain ⟨e, -, hrow⟩ := List.mem_flatMap.mp hm
    exact ⟨e, fields, hrow, hr⟩
  · rintro ⟨e, fields, hrow, hr⟩
    exact ⟨fields, List.mem_flatMap.mpr ⟨e, mem_all e, hrow⟩, hr⟩

/-- The rule in a row of the table of an edition. -/
theorem rule?_standard_of_row {type : Text} {fields : List (Text × Entry)} (e : Edition) (i : Nat)
    (h : e.table[i]? = some (type, fields)) : standard.rule? type = some (.ofFields fields) :=
  rule?_standard_eq_some.mpr ⟨e, fields, List.mem_of_getElem? h, rfl⟩

end Grammar

end Estree
