import Estree.Grammar.Standard
import Estree.Proofs.Dict

/-!
The rules of the standard grammar.

They are static where a walk is concerned: the children of a node are looked up under
text, and whether a node opens a scope is written out.  So nothing that a walk asks of
them can fail, `opensScope_ok` and `childrenOf_ok`.
-/

namespace Estree

/-! ### Static rules -/

namespace Entry

def isComputed : Entry → Bool
  | .computed _ => true
  | _ => false

def isText : Entry → Bool
  | .data (.text _) => true
  | _ => false

theorem exists_of_isText {e : Entry} (h : e.isText = true) : ∃ s, e = .data (.text s) := by
  unfold isText at h
  split at h
  · exact ⟨_, rfl⟩
  · cases h

theorem eval_of_not_computed {e : Entry} (h : e.isComputed = false) (node : Value)
    (flags : Flags) : e.eval node flags = .ok e.shown := by
  cases e with
  | computed f => cases h
  | _ => rfl

end Entry

namespace Value

theorem childrenFrom_ok {names : List Entry} (h : ∀ name ∈ names, name.isText = true) (v : Value)
    (n : Nat) : ∃ cs, v.childrenFrom n names = .ok cs := by
  induction names generalizing n with
  | nil => exact ⟨[], rfl⟩
  | cons name rest ih =>
    obtain ⟨s, rfl⟩ := Entry.exists_of_isText (h name List.mem_cons_self)
    obtain ⟨more, hmore⟩ := ih (fun name hn => h name (List.mem_cons_of_mem _ hn)) (n + 1)
    exact ⟨_, childrenFrom_cons_eq_ok.mpr ⟨v.prop s, more, rfl, hmore, rfl⟩⟩

end Value

namespace Rule

/-- Nothing that a walk asks of a rule has to be worked out from the node. -/
def isStatic (r : Rule) : Bool := r.children.all Entry.isText && !r.newScope.isComputed

theorem opensScope_of_not_computed {r : Rule} (h : r.newScope.isComputed = false)
    (node : Value) : r.opensScope node = .ok r.newScope.shown.truthy := by
  rw [opensScope, Entry.eval_of_not_computed h]
  rfl

theorem opensScope_ok {r : Rule} (h : r.isStatic = true) (node : Value) :
    r.opensScope node = .ok r.newScope.shown.truthy := by
  simp only [isStatic, Bool.and_eq_true, Bool.not_eq_true'] at h
  exact opensScope_of_not_computed h.2 node

theorem childrenOf_ok {r : Rule} (h : r.isStatic = true) (node : Value) :
    ∃ cs, r.childrenOf node = .ok cs := by
  simp only [isStatic, Bool.and_eq_true, List.all_eq_true] at h
  exact Value.childrenFrom_ok h.1 node 0

end Rule

namespace Grammar

/-- Of the rows of a table with the same name the last one counts. -/
theorem read?_keyed {β : Type} (table : List (Text × β)) (name : Text) :
    (Edition.keyed table).read? (.text name) = table.reverse.lookup name := by
  rw [Edition.keyed, Keyed.read?, Dict.get?_ofList, ← List.map_reverse,
    Entries.lookup_map (fun _ _ => Key.text.inj) (fun name v => (Value.text name, v)),
    Option.map_map]
  exact Option.map_id'

/-- The rules of the standard grammar are those of the tables of all editions. -/
theorem rule?_standard (type : Text) :
    standard.rule? type =
      ((Edition.all.flatMap Edition.table).reverse.lookup type).map Rule.ofFields := by
  rw [standard, rule?, read?_keyed, ← List.map_reverse]
  exact Entries.lookup_map (fun _ _ h => h) (fun _ => Rule.ofFields) type _

theorem isStatic_of_mem_table (e : Edition) :
    ∀ row ∈ e.table, (Rule.ofFields row.2).isStatic = true := by
  cases e <;> decide

theorem isStatic_of_standard {type : Text} {r : Rule} (h : standard.rule? type = some r) :
    r.isStatic = true := by
  rw [rule?_standard, Option.map_eq_some_iff] at h
  obtain ⟨fields, hrow, rfl⟩ := h
  have hmem := List.mem_reverse.mp (Entries.mem_of_lookup hrow)
  obtain ⟨e, -, he⟩ := List.mem_flatMap.mp hmem
  exact isStatic_of_mem_table e (type, fields) he

end Grammar

end Estree
