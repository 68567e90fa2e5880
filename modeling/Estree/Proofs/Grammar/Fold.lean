import Estree.Grammar
import Estree.Proofs.Dict
import Estree.Proofs.Log
import Estree.Proofs.Sorting

/-!
Grammars folded from layers.

A fold fails with the first entry or layer that describes no rule.  Otherwise it writes
the rows of the layers one after another, `ends_ofLayers`, so a node type has the rule of
the last layer it stands in and the place where it stood first; and the notes say which
rules were replaced.  Main statement: `ofLayers_folds`.
-/

namespace Estree

namespace Draft

/-- The rule of a draft that describes one. -/
def described : Draft → Rule
  | .rule r => r
  | .fields table => .ofFields (table.rows.filterMap named?)
  | .other _ => .default

/-- What is wrong with a draft that describes no rule. -/
def problem? : Draft → Option Grammar.Problem
  | .other kind => some (.notATable kind)
  | _ => none

/-- The names in a draft that are passed over. -/
def ignored : Draft → List Value
  | .fields table => unknownFields table.rows
  | _ => []

end Draft

/-- What a fold notes. -/
inductive Remark where
  | overrides (layer : Text) (type : Value)
  | ignored (name : Value)
  | folded (layer : Text) (count : Nat)

namespace Remark

def text : Remark → Text
  | .overrides layer type => layer ++ " overrides syntax for " ++ type.plain
  | .ignored name => "Ignoring unknown syntax field " ++ name.quoted
  | .folded layer count => "Folded " ++ toString count ++ " syntax entries from " ++ layer

/-- The layer and the type of a rule that is replaced. -/
def override? : Remark → Option (Text × Value)
  | .overrides layer type => some (layer, type)
  | _ => none

end Remark

namespace Layer

/-- The entries of a layer by key, each with the key as it is written. -/
def rows : Layer → List (Key × Value × Draft)
  | .table _ drafts => drafts.entries.entries
  | .bare _ => []

def name : Layer → Text
  | .table name _ => name
  | .bare _ => ""

def keys (l : Layer) : List Key := l.rows.map Prod.fst

/-- What a layer holds for a key. -/
def draft? (l : Layer) (key : Key) : Option Draft := (l.rows.lookup key).map Prod.snd

/-- How a layer writes a key. -/
def shown? (l : Layer) (key : Key) : Option Value := (l.rows.lookup key).map Prod.fst

def has (l : Layer) (key : Key) : Bool := (l.draft? key).isSome

/-- The rows with the rules that their drafts describe. -/
def ruleRows (l : Layer) : List (Key × Value × Rule) :=
  l.rows.map fun row => (row.1, row.2.1, row.2.2.described)

/-- The first thing wrong with a layer, if anything is. -/
def problem? : Layer → Option Grammar.Problem
  | .bare kind => some (.noTable kind)
  | .table _ drafts => drafts.entries.entries.findSome? fun row => row.2.2.problem?

/-- What is noted of a layer when some keys have rules already. -/
def remarks (seen : Key → Bool) : Layer → List Remark
  | .bare _ => []
  | .table name drafts =>
    (drafts.entries.entries.flatMap fun row =>
      (if seen row.1 then [Remark.overrides name row.2.1] else []) ++
        row.2.2.ignored.map Remark.ignored) ++ [.folded name drafts.entries.size]

/-- Another layer has the same entries, some of them with the rule they come to. -/
inductive Completes : Layer → Layer → Prop where
  | bare (kind : String) : Completes (.bare kind) (.bare kind)
  | table {name : Text} {drafts drafts' : Drafts}
    (same : List.Forall₂ (fun row row' => row'.1 = row.1 ∧ row'.2.1 = row.2.1 ∧
      (row'.2.2 = row.2.2 ∨
        ∃ r, row.2.2.normalize.collect.1 = .ok r ∧ row'.2.2 = .rule r))
      drafts.entries.entries drafts'.entries.entries) :
    Completes (.table name drafts) (.table name drafts')

theorem nodup_keys (l : Layer) : l.keys.Nodup := by
  cases l with
  | table name drafts => exact drafts.entries.nodup
  | bare kind => exact List.nodup_nil

theorem has_iff {l : Layer} {key : Key} : l.has key = true ↔ key ∈ l.keys := by
  rw [has, draft?, Option.isSome_map, Option.isSome_iff_ne_none, ne_eq, Entries.lookup_eq_none,
    not_not, keys]

theorem keys_ruleRows (l : Layer) : l.ruleRows.map Prod.fst = l.keys := by
  rw [ruleRows, List.map_map]
  rfl

theorem lookup_ruleRows (l : Layer) (key : Key) :
    l.ruleRows.lookup key = (l.rows.lookup key).map fun row => (row.1, row.2.described) :=
  Entries.lookup_map (f := id) (fun _ _ h => h)
    (fun _ (row : Value × Draft) => (row.1, row.2.described)) key l.rows

end Layer

namespace Grammar

open Logged (ends_note ends_pure ends_throw)

/-- The layers before a layer have a key. -/
def seenIn (before : List Layer) (key : Key) : Bool := before.any fun l => l.has key

/-- What is noted of layers that come after others. -/
def remarksFrom : List Layer → List Layer → List Remark
  | _, [] => []
  | before, l :: rest => l.remarks (seenIn before) ++ remarksFrom (before ++ [l]) rest

/-- Each layer with the types of it that a layer before it has too. -/
def overridden : List Layer → List Layer → List (Text × Value)
  | _, [] => []
  | before, l :: rest =>
    ((l.rows.filter fun row => seenIn before row.1).map fun row => (l.name, row.2.1)) ++
      overridden (before ++ [l]) rest

/-- The draft of the last layer that has a key. -/
def lastDraft? (layers : List Layer) (key : Key) : Option Draft :=
  layers.reverse.findSome? fun l => l.draft? key

/-- The rules of all layers, written one after another. -/
def written (layers : List Layer) : Grammar :=
  ⟨Keyed.writeAll .empty (layers.flatMap Layer.ruleRows)⟩

/-- The rules of both, those of the second before those of the first. -/
def union (a b : Grammar) : Grammar := ⟨a.rules.writeAll b.rules.entries⟩

/-! ### One entry, one layer, all layers -/

theorem ends_forM_note (names : List Value) :
    (names.forM fun name => Logged.note (ε := Problem)
      ("Ignoring unknown syntax field " ++ name.quoted)).Ends (.ok ())
      ((names.map Remark.ignored).map Remark.text) := by
  induction names with
  | nil => exact ends_pure _
  | cons name names ih => exact (ends_note _).bind ih

theorem ends_normalize {d : Draft} (h : d.problem? = none) :
    d.normalize.Ends (.ok d.described) ((d.ignored.map Remark.ignored).map Remark.text) := by
  cases d with
  | rule r => exact ends_pure r
  | fields table =>
    rw [← List.append_nil (((Draft.fields table).ignored.map Remark.ignored).map Remark.text)]
    exact (ends_forM_note _).bind (ends_pure _)
  | other kind => cases h

theorem ends_normalize_problem {d : Draft} {p : Problem} (h : d.problem? = some p) :
    d.normalize.Ends (.error p) [] := by
  cases d with
  | other kind =>
    cases h
    exact ends_throw _
  | _ => cases h

theorem described_of_normalize {d : Draft} {r : Rule} (h : d.normalize.collect.1 = .ok r) :
    d.problem? = none ∧ d.described = r := by
  cases hd : d.problem? with
  | some p =>
    rw [(ends_normalize_problem hd).collect] at h
    cases h
  | none =>
    rw [(ends_normalize hd).collect] at h
    cases h
    exact ⟨rfl, rfl⟩

theorem ends_addEntry (layer : Text) (g : Grammar) {row : Key × Value × Draft}
    (h : row.2.2.problem? = none) :
    (addEntry layer g row).Ends (.ok ⟨g.rules.write row.1 row.2.1 row.2.2.described⟩)
      (((if g.contains row.1 then [Remark.overrides layer row.2.1] else []) ++
        row.2.2.ignored.map Remark.ignored).map Remark.text) := by
  obtain ⟨key, type, d⟩ := row
  have hrest : (do let r ← d.normalize; return (⟨g.rules.write key type r⟩ : Grammar) :
      Logged Problem Grammar).Ends (.ok ⟨g.rules.write key type d.described⟩)
        ((d.ignored.map Remark.ignored).map Remark.text ++ []) :=
    (ends_normalize h).bind (ends_pure _)
  rw [List.append_nil] at hrest
  rw [List.map_append]
  simp only [addEntry]
  split
  · exact (ends_note _).bind hrest
  · exact hrest

theorem ends_addEntry_problem (layer : Text) (g : Grammar) {row : Key × Value × Draft}
    {p : Problem} (h : row.2.2.problem? = some p) :
    ∃ lines, (addEntry layer g row).Ends (.error p) lines := by
  obtain ⟨key, type, d⟩ := row
  have hrest : (do let r ← d.normalize; return (⟨g.rules.write key type r⟩ : Grammar) :
      Logged Problem Grammar).Ends (.error p) [] := (ends_normalize_problem h).bind_error
  simp only [addEntry]
  split
  · exact ⟨_, (ends_note _).bind hrest⟩
  · exact ⟨_, hrest⟩

theorem contains_write (g : Grammar) (key x : Key) (shown : Value) (r : Rule) :
    contains ⟨g.rules.write key shown r⟩ x = (decide (x = key) || g.contains x) := by
  rw [contains, Keyed.read?_write, contains]
  by_cases h : x = key <;> simp [h]

/-- No key stands twice in a layer, so a rule is replaced in it only if it was there
before the layer. -/
theorem ends_addEntries (layer : Text) (g : Grammar) (seen : Key → Bool)
    {rows : List (Key × Value × Draft)} (hnodup : (rows.map Prod.fst).Nodup)
    (hseen : ∀ row ∈ rows, g.contains row.1 = seen row.1)
    (h : ∀ row ∈ rows, row.2.2.problem? = none) :
    (rows.foldlM (addEntry layer) g).Ends
      (.ok ⟨g.rules.writeAll (rows.map fun row => (row.1, row.2.1, row.2.2.described))⟩)
      ((rows.flatMap fun row => (if seen row.1 then [Remark.overrides layer row.2.1] else []) ++
        row.2.2.ignored.map Remark.ignored).map Remark.text) := by
  induction rows generalizing g with
  | nil => exact ends_pure g
  | cons row rows ih =>
    obtain ⟨hfresh, hrest⟩ := List.nodup_cons.mp hnodup
    have hentry := ends_addEntry layer g (h row List.mem_cons_self)
    rw [hseen row List.mem_cons_self] at hentry
    rw [List.foldlM_cons, List.flatMap_cons, List.map_append]
    refine hentry.bind (ih _ hrest (fun row' h' => ?_) fun row' h' =>
      h row' (List.mem_cons_of_mem row h'))
    have hne : row'.1 ≠ row.1 := fun he => hfresh (he ▸ List.mem_map_of_mem h')
    rw [contains_write, decide_eq_false hne, Bool.false_or]
    exact hseen row' (List.mem_cons_of_mem row h')

theorem ends_addEntries_problem (layer : Text) (g : Grammar) {rows : List (Key × Value × Draft)}
    {p : Problem} (h : rows.findSome? (fun row => row.2.2.problem?) = some p) :
    ∃ lines, (rows.foldlM (addEntry layer) g).Ends (.error p) lines := by
  induction rows generalizing g with
  | nil => cases h
  | cons row rows ih =>
    rw [List.foldlM_cons]
    rw [List.findSome?_cons] at h
    cases hrow : row.2.2.problem? with
    | some q =>
      rw [hrow] at h
      cases h
      obtain ⟨lines, hentry⟩ := ends_addEntry_problem layer g hrow
      exact ⟨lines, hentry.bind_error⟩
    | none =>
      rw [hrow] at h
      obtain ⟨lines, hrest⟩ := ih ⟨g.rules.write row.1 row.2.1 row.2.2.described⟩ h
      exact ⟨_, (ends_addEntry layer g hrow).bind hrest⟩

theorem ends_addLayer (g : Grammar) {l : Layer} (seen : Key → Bool)
    (hseen : ∀ key, g.contains key = seen key) (h : l.problem? = none) :
    (g.addLayer l).Ends (.ok ⟨g.rules.writeAll l.ruleRows⟩) ((l.remarks seen).map Remark.text) := by
  cases l with
  | bare kind => cases h
  | table name drafts =>
    have hproblems : ∀ row ∈ drafts.entries.entries, row.2.2.problem? = none :=
      List.findSome?_eq_none_iff.mp h
    have hentries := ends_addEntries name g seen drafts.entries.nodup (fun row _ => hseen row.1)
      hproblems
    rw [Layer.remarks, List.map_append]
    exact hentries.bind ((ends_note _).bind (ends_pure _))

theorem ends_addLayer_problem (g : Grammar) {l : Layer} {p : Problem} (h : l.problem? = some p) :
    ∃ lines, (g.addLayer l).Ends (.error p) lines := by
  cases l with
  | bare kind =>
    cases h
    exact ⟨[], ends_throw _⟩
  | table name drafts =>
    obtain ⟨lines, hentries⟩ := ends_addEntries_problem name g h
    exact ⟨lines, hentries.bind_error⟩

theorem contains_writeAll (g : Grammar) (l : Layer) (key : Key) :
    contains ⟨g.rules.writeAll l.ruleRows⟩ key = (g.contains key || l.has key) := by
  have hkeys : (l.ruleRows.map Prod.fst).Nodup := l.keys_ruleRows ▸ l.nodup_keys
  rw [contains, Keyed.read?_writeAll, Entries.lookup_reverse hkeys, l.lookup_ruleRows, Layer.has,
    Layer.draft?, contains]
  cases l.rows.lookup key <;> simp

theorem ends_addLayers (g : Grammar) (before : List Layer) {layers : List Layer}
    (hseen : ∀ key, g.contains key = seenIn before key) (h : ∀ l ∈ layers, l.problem? = none) :
    (layers.foldlM addLayer g).Ends (.ok ⟨g.rules.writeAll (layers.flatMap Layer.ruleRows)⟩)
      ((remarksFrom before layers).map Remark.text) := by
  induction layers generalizing g before with
  | nil => exact ends_pure g
  | cons l layers ih =>
    have hlayer := ends_addLayer g (seenIn before) hseen (h l List.mem_cons_self)
    rw [List.foldlM_cons, List.flatMap_cons, Keyed.writeAll_append, remarksFrom, List.map_append]
    refine hlayer.bind (ih _ (before ++ [l]) (fun key => ?_) fun l' hl =>
      h l' (List.mem_cons_of_mem l hl))
    rw [contains_writeAll, hseen, seenIn, seenIn, List.any_append]
    simp

/-- A fold in which nothing is wrong writes the rows of all layers in order. -/
theorem ends_ofLayers {layers : List Layer} (h : layers.findSome? Layer.problem? = none) :
    (ofLayers layers).Ends (.ok (written layers))
      ((remarksFrom [] layers).map Remark.text) :=
  ends_addLayers empty [] (fun _ => rfl) (List.findSome?_eq_none_iff.mp h)

theorem ends_ofLayers_problem {layers : List Layer} {p : Problem}
    (h : layers.findSome? Layer.problem? = some p) :
    ∃ lines, (ofLayers layers).Ends (.error p) lines := by
  have hall : ∀ g : Grammar, ∃ lines, (layers.foldlM addLayer g).Ends (.error p) lines := by
    induction layers with
    | nil => cases h
    | cons l layers ih =>
      intro g
      rw [List.foldlM_cons]
      rw [List.findSome?_cons] at h
      cases hl : l.problem? with
      | some q =>
        rw [hl] at h
        cases h
        obtain ⟨lines, hlayer⟩ := ends_addLayer_problem g hl
        exact ⟨lines, hlayer.bind_error⟩
      | none =>
        rw [hl] at h
        obtain ⟨lines, hrest⟩ := ih h ⟨g.rules.writeAll l.ruleRows⟩
        exact ⟨_, (ends_addLayer g g.contains (fun _ => rfl) hl).bind hrest⟩
  exact hall empty

/-! ### What a fold gives -/

/-- A grammar has for each key the rule of the last layer that has the key, and its node
types in order of their first appearance. -/
structure Folds (layers : List Layer) (g : Grammar) : Prop where
  lookup : ∀ key, key ≠ .null →
    match lastDraft? layers key with
    | some d => d.normalize.collect.1 = .ok (g.lookupKey key)
    | none => g.lookupKey key = .default
  lookup_text : ∀ type, g.lookup (some type) = g.lookupKey (.text type)
  lookup_null : g.lookup none = .default ∧ g.lookupKey .null = .default
  contains : ∀ key, g.contains key = layers.any fun l => l.has key
  keys : g.rules.keys = (layers.flatMap Layer.keys).eraseDups
  /-- A key is shown as in the first layer that has it. -/
  types : g.types = g.rules.keys.map fun key =>
    (layers.findSome? fun l => l.shown? key).getD .null
  size : g.size = (layers.flatMap Layer.keys).toFinset.card
  rearranged : ∀ types, g.sortedTypes = .ok types → types.Perm g.types
  sorted : (∀ l ∈ layers, ∀ row ∈ l.rows, ∃ s, row.1 = .text s ∧ row.2.1 = .text s) →
    ∃ ss : List Text, g.sortedTypes = .ok (ss.map .text) ∧ ss.Pairwise (· < ·)

theorem problem?_of_mem_rows {l : Layer} (h : l.problem? = none) {row : Key × Value × Draft}
    (hrow : row ∈ l.rows) : row.2.2.problem? = none := by
  cases l with
  | bare kind => cases h
  | table name drafts => exact List.findSome?_eq_none_iff.mp h row hrow

theorem lookup_last (layers : List Layer) (key : Key) :
    ((layers.flatMap Layer.ruleRows).reverse.lookup key).map Prod.snd =
      (lastDraft? layers key).map Draft.described := by
  induction layers with
  | nil => rfl
  | cons l layers ih =>
    have hkeys : (l.ruleRows.map Prod.fst).Nodup := l.keys_ruleRows ▸ l.nodup_keys
    rw [List.flatMap_cons, List.reverse_append, List.lookup_append, lastDraft?, List.reverse_cons,
      List.findSome?_append, ← lastDraft?, Option.map_or, Option.map_or, ih,
      Entries.lookup_reverse hkeys, l.lookup_ruleRows, List.findSome?_singleton, Layer.draft?]
    cases l.rows.lookup key <;> rfl

theorem lookup_first (layers : List Layer) (key : Key) :
    ((layers.flatMap Layer.ruleRows).lookup key).map Prod.fst =
      layers.findSome? fun l => l.shown? key := by
  induction layers with
  | nil => rfl
  | cons l layers ih =>
    rw [List.flatMap_cons, List.lookup_append, Option.map_or, ih, List.findSome?_cons,
      l.lookup_ruleRows, Layer.shown?]
    cases l.rows.lookup key <;> rfl

theorem keys_flatMap_ruleRows (layers : List Layer) :
    (layers.flatMap Layer.ruleRows).map Prod.fst = layers.flatMap Layer.keys := by
  rw [List.map_flatMap]
  exact congrArg layers.flatMap (funext Layer.keys_ruleRows)

/-- Texts come before one another as they are compared. -/
theorem decides_before :
    Sorting.Decides before (fun a => ∃ s, a = (Key.text s, Value.text s)) fun a b =>
      ∃ s t, a = (Key.text s, Value.text s) ∧ b = (Key.text t, Value.text t) ∧ ¬t < s where
  trans := by
    rintro a b c ⟨s, t, rfl, hb, hst⟩ ⟨t', u, hb', rfl, htu⟩
    obtain rfl : t = t' := Key.text.inj (Prod.mk.inj (hb.symm.trans hb')).1
    exact ⟨s, u, rfl, rfl, Text.not_lt_trans hst htu⟩
  answer := by
    rintro a b ⟨s, rfl⟩ ⟨t, rfl⟩
    have hbefore : before (Key.text s, Value.text s) (Key.text t, Value.text t) =
        .ok (decide (s < t)) := rfl
    by_cases h : s < t
    · rw [hbefore, decide_eq_true h]
      exact .inl ⟨rfl, s, t, rfl, rfl, Text.not_lt_of_lt h⟩
    · rw [hbefore, decide_eq_false h]
      exact .inr ⟨rfl, t, s, rfl, rfl, h⟩

theorem exists_texts {rows : List (Key × Value)}
    (h : ∀ row ∈ rows, ∃ s, row = (Key.text s, Value.text s)) :
    ∃ ss : List Text, rows = ss.map fun s => (Key.text s, Value.text s) := by
  induction rows with
  | nil => exact ⟨[], rfl⟩
  | cons row rows ih =>
    obtain ⟨s, rfl⟩ := h row List.mem_cons_self
    obtain ⟨ss, rfl⟩ := ih fun row' h' => h row' (List.mem_cons_of_mem _ h')
    exact ⟨s :: ss, rfl⟩

/-- Node types that are texts have an alphabetical order. -/
theorem exists_sortedTypes {g : Grammar}
    (h : ∀ e ∈ g.rules.entries, ∃ s, e.1 = .text s ∧ e.2.1 = .text s) :
    ∃ ss : List Text, g.sortedTypes = .ok (ss.map .text) ∧ ss.Pairwise (· < ·) := by
  have hkind : ∀ row ∈ g.rules.entries.map (fun e => (e.1, e.2.1)),
      ∃ s, row = (Key.text s, Value.text s) := by
    intro row hrow
    obtain ⟨e, he, rfl⟩ := List.mem_map.mp hrow
    obtain ⟨s, hkey, hshown⟩ := h e he
    exact ⟨s, Prod.ext hkey hshown⟩
  obtain ⟨rows, hsort, hperm, hsorted⟩ := Sorting.exists_sort decides_before hkind
  obtain ⟨ss, rfl⟩ := exists_texts fun row hrow => hkind row (hperm.mem_iff.mp hrow)
  have hnodup : ss.Nodup := by
    have hkeys := hperm.map Prod.fst
    rw [List.map_map, List.map_map] at hkeys
    exact (hkeys.nodup_iff.mpr g.rules.nodup).of_map
  refine ⟨ss, ?_, ?_⟩
  · show (Sorting.sort before (g.rules.entries.map fun e => (e.1, e.2.1)) >>= _) = _
    rw [hsort]
    show Except.ok ((ss.map fun s => (Key.text s, Value.text s)).map Prod.snd) = _
    rw [List.map_map]
    rfl
  · refine ((List.pairwise_map.mp hsorted).and hnodup).imp ?_
    rintro s t ⟨⟨s', t', hs, ht, hle⟩, hne⟩
    obtain rfl := Key.text.inj (Prod.mk.inj hs).1
    obtain rfl := Key.text.inj (Prod.mk.inj ht).1
    exact Text.lt_of_not_lt hle hne

theorem keys_written (layers : List Layer) :
    (written layers).rules.keys = (layers.flatMap Layer.keys).eraseDups := by
  rw [written, Keyed.keys_writeAll, keys_flatMap_ruleRows]
  rfl

theorem read?_written (layers : List Layer) (key : Key) :
    (written layers).rules.read? key = (lastDraft? layers key).map Draft.described := by
  rw [written, Keyed.read?_writeAll, lookup_last]
  exact Option.or_none

theorem shown?_written (layers : List Layer) (key : Key) :
    Keyed.shown? (written layers).rules key = layers.findSome? fun l => l.shown? key := by
  rw [written, Keyed.shown?_writeAll, lookup_first]
  rfl

/-- Every entry of the grammar comes from a row of a layer. -/
theorem exists_row {layers : List Layer} {e : Key × Value × Rule}
    (he : e ∈ (written layers).rules.entries) : ∃ l ∈ layers, ∃ d, (e.1, e.2.1, d) ∈ l.rows := by
  have hget : (written layers).rules.get? e.1 = some e.2 :=
    Entries.lookup_of_nodup (Dict.nodup _) he
  have hshown : Keyed.shown? (written layers).rules e.1 = some e.2.1 :=
    congrArg (Option.map Prod.fst) hget
  rw [shown?_written] at hshown
  obtain ⟨l, hl, hrow⟩ := List.exists_of_findSome?_eq_some hshown
  obtain ⟨⟨shown, d⟩, hlookup, rfl⟩ := Option.map_eq_some_iff.mp hrow
  exact ⟨l, hl, d, Entries.mem_of_lookup hlookup⟩

theorem folds_written {layers : List Layer} (h : layers.findSome? Layer.problem? = none) :
    Folds layers (written layers) := by
  have hlayers : ∀ l ∈ layers, l.problem? = none := List.findSome?_eq_none_iff.mp h
  refine ⟨fun key hkey => ?_, fun type => rfl, ⟨rfl, rfl⟩, fun key => ?_, keys_written layers,
    ?_, ?_,
    fun types ht => ?_, fun htexts => exists_sortedTypes fun e he => ?_⟩
  · simp only [lookupKey, if_neg hkey, read?_written]
    cases hlast : lastDraft? layers key with
    | none => rfl
    | some d =>
      obtain ⟨l, hl, hdraft⟩ := List.exists_of_findSome?_eq_some hlast
      obtain ⟨row, hrow, rfl⟩ := Option.map_eq_some_iff.mp hdraft
      have hproblem : row.2.problem? = none :=
        problem?_of_mem_rows (hlayers l (List.mem_reverse.mp hl)) (Entries.mem_of_lookup hrow)
      exact congrArg Prod.fst (ends_normalize hproblem).collect
  · rw [Bool.eq_iff_iff, Grammar.contains, Keyed.read?, Option.isSome_map, Dict.get?_isSome,
      keys_written, List.mem_eraseDups, List.mem_flatMap, List.any_eq_true]
    exact exists_congr fun l => and_congr_right fun _ => Layer.has_iff.symm
  · refine (Keyed.pairs_shown _).trans (List.map_congr_left fun key _ => ?_)
    rw [shown?_written]
  · rw [Grammar.size, Dict.size_eq_card, keys_written]
    exact congrArg Finset.card (Finset.ext fun key => by simp)
  · obtain ⟨rows, hsort, hrows⟩ := Logged.bind_eq_ok.mp ht
    cases hrows
    have hperm := (Sorting.perm_of_sort hsort).map Prod.snd
    rw [List.map_map] at hperm
    rw [types, Keyed.pairs, List.map_map]
    exact hperm
  · obtain ⟨l, hl, d, hrow⟩ := exists_row he
    exact htexts l hl _ hrow

/-! ### The laws of folding -/

theorem remarks_overrides (seen : Key → Bool) (l : Layer) :
    (l.remarks seen).filterMap Remark.override? =
      (l.rows.filter fun row => seen row.1).map fun row => (l.name, row.2.1) := by
  cases l with
  | bare kind => rfl
  | table name drafts =>
    have hignored : ∀ names : List Value,
        (names.map Remark.ignored).filterMap Remark.override? = [] := fun names => by
      rw [List.filterMap_map]
      exact List.filterMap_eq_nil_iff.mpr fun _ _ => rfl
    rw [Layer.remarks, List.filterMap_append]
    show _ ++ [] = _
    rw [List.append_nil, List.filterMap_flatMap]
    show List.flatMap _ _ = (drafts.entries.entries.filter _).map _
    generalize drafts.entries.entries = rows
    induction rows with
    | nil => rfl
    | cons row rows ih =>
      rw [List.flatMap_cons, ih, List.filterMap_append, hignored, List.append_nil,
        List.filter_cons]
      cases seen row.1 <;> rfl

theorem remarksFrom_overrides (before layers : List Layer) :
    (remarksFrom before layers).filterMap Remark.override? = overridden before layers := by
  induction layers generalizing before with
  | nil => rfl
  | cons l layers ih =>
    rw [remarksFrom, List.filterMap_append, remarks_overrides, ih, overridden]

theorem problem?_of_completes {l l' : Layer} (h : l.Completes l') :
    l'.problem? = l.problem? ∧ l'.ruleRows = l.ruleRows := by
  cases h with
  | bare kind => exact ⟨rfl, rfl⟩
  | @table name drafts drafts' same =>
    show drafts'.entries.entries.findSome? _ = drafts.entries.entries.findSome? _ ∧
      drafts'.entries.entries.map _ = drafts.entries.entries.map _
    generalize drafts.entries.entries = rows, drafts'.entries.entries = rows' at same ⊢
    induction same with
    | nil => exact ⟨rfl, rfl⟩
    | @cons row row' rows rows' hrow _ ih =>
      obtain ⟨hkey, hshown, hdraft⟩ := hrow
      obtain ⟨hproblem, hdescribed⟩ : row'.2.2.problem? = row.2.2.problem? ∧
          row'.2.2.described = row.2.2.described := by
        rcases hdraft with h | ⟨r, hr, h⟩
        · exact h ▸ ⟨rfl, rfl⟩
        · obtain ⟨hnone, hrule⟩ := described_of_normalize hr
          rw [h, hnone, hrule]
          exact ⟨rfl, rfl⟩
      rw [List.findSome?_cons, List.findSome?_cons, hproblem, ih.1, List.map_cons, List.map_cons,
        hkey, hshown, hdescribed, ih.2]
      exact ⟨rfl, rfl⟩

/-- What a fold comes to, without its notes. -/
theorem collect_ofLayers (layers : List Layer) :
    (ofLayers layers).collect.1 =
      match layers.findSome? Layer.problem? with
      | some p => .error p
      | none => .ok (written layers) := by
  cases h : layers.findSome? Layer.problem? with
  | some p =>
    obtain ⟨lines, hends⟩ := ends_ofLayers_problem h
    exact congrArg Prod.fst hends.collect
  | none => exact congrArg Prod.fst (ends_ofLayers h).collect

/-- Rules in place of their drafts change nothing but the notes. -/
theorem collect_of_completes {layers layers' : List Layer}
    (h : List.Forall₂ Layer.Completes layers layers') :
    (ofLayers layers').collect.1 = (ofLayers layers).collect.1 := by
  have hsame : layers'.findSome? Layer.problem? = layers.findSome? Layer.problem? ∧
      layers'.flatMap Layer.ruleRows = layers.flatMap Layer.ruleRows := by
    induction h with
    | nil => exact ⟨rfl, rfl⟩
    | cons hl _ ih =>
      obtain ⟨hproblem, hrows⟩ := problem?_of_completes hl
      rw [List.findSome?_cons, List.findSome?_cons, hproblem, ih.1, List.flatMap_cons,
        List.flatMap_cons, hrows, ih.2]
      exact ⟨rfl, rfl⟩
  rw [collect_ofLayers, collect_ofLayers, written, written, hsame.1, hsame.2]

theorem union_written (layers more : List Layer) :
    (written layers).union (written more) = written (layers ++ more) := by
  rw [union, written, written, written, Keyed.writeAll_entries, ← Keyed.writeAll_append,
    List.flatMap_append]

theorem collect_append (layers more : List Layer) :
    (ofLayers (layers ++ more)).collect.1 = do
      let a ← (ofLayers layers).collect.1
      let b ← (ofLayers more).collect.1
      return a.union b := by
  rw [collect_ofLayers, collect_ofLayers layers, collect_ofLayers more, List.findSome?_append]
  cases layers.findSome? Layer.problem? with
  | some p => rfl
  | none =>
    cases more.findSome? Layer.problem? with
    | some p => rfl
    | none =>
      show Except.ok (written (layers ++ more)) = Except.ok ((written layers).union (written more))
      rw [union_written]

/-- The rules of the second grammar win, the node types of the first stand first. -/
theorem read?_union (a b : Grammar) :
    (∀ key, (a.union b).rules.read? key = (b.rules.read? key).or (a.rules.read? key)) ∧
      (a.union b).rules.keys = (a.rules.keys ++ b.rules.keys).eraseDups := by
  refine ⟨fun key => ?_, Keyed.keys_writeAll _ _⟩
  have hread := Keyed.read?_writeAll a.rules b.rules.entries key
  rwa [Entries.lookup_reverse b.rules.nodup] at hread

/-- Layers are folded in order: a fold fails with the first problem there is, and else
gives each node type the rule of the last layer that has it and the place where it stood
first.  It notes each rule that is replaced, does not depend on which drafts are complete,
and folding more layers after some is taking the union of the two grammars. -/
theorem ofLayers_folds (layers : List Layer) :
    (∀ p, layers.findSome? Layer.problem? = some p →
      (ofLayers layers).collect.1 = .error p) ∧
    (layers.findSome? Layer.problem? = none → ∃ g,
      (ofLayers layers).collect = (.ok g, (remarksFrom [] layers).map Remark.text) ∧
        Folds layers g) ∧
    (remarksFrom [] layers).filterMap Remark.override? = overridden [] layers ∧
    (∀ layers', List.Forall₂ Layer.Completes layers layers' →
      (ofLayers layers').collect.1 = (ofLayers layers).collect.1) ∧
    (∀ more, (ofLayers (layers ++ more)).collect.1 = do
      let a ← (ofLayers layers).collect.1
      let b ← (ofLayers more).collect.1
      return a.union b) ∧
    ∀ a b : Grammar,
      (∀ key, (a.union b).rules.read? key = (b.rules.read? key).or (a.rules.read? key)) ∧
        (a.union b).rules.keys = (a.rules.keys ++ b.rules.keys).eraseDups := by
  refine ⟨fun p hp => ?_, fun h => ⟨_, (ends_ofLayers h).collect, folds_written h⟩,
    remarksFrom_overrides [] layers, fun layers' => collect_of_completes,
    collect_append layers, read?_union⟩
  obtain ⟨lines, hends⟩ := ends_ofLayers_problem hp
  exact congrArg Prod.fst hends.collect

end Grammar

end Estree
