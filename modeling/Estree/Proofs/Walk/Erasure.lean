import Estree.Proofs.Grammar.Layers
import Estree.Proofs.Walk.Order
import Mathlib.Data.List.Dedup
import Mathlib.Data.List.Forall2

/-!
What a walk cannot see.

Erasing a tree keeps of each node its type, a label that tells nodes apart and the nodes
of known types in the properties that its rule declares.  A walk reports the same of
what is left, `view_describeTree_erase`, if the grammar works out no scope from a node.
So nothing that is erased can reach a consumer that knows nodes by their labels.
-/

namespace Estree

namespace Entry

def text? : Entry → Option Text
  | .data (.text s) => some s
  | _ => none

theorem eq_of_text? {e : Entry} {s : Text} (h : e.text? = some s) : e = .data (.text s) := by
  unfold text? at h
  split at h
  · cases h; rfl
  · cases h

end Entry

def Rule.childTexts (r : Rule) : List Text := r.children.filterMap Entry.text?

namespace Value

/-- An object with the given properties, without those that are null. -/
def pick (style : Style) (names : List Text) (read : Text → Value) : Value :=
  .object style ((names.map fun name => (name, read name)).filter fun field => !field.2.isNull)

theorem pick_congr {style : Style} {names : List Text} {read read' : Text → Value}
    (h : ∀ name ∈ names, read name = read' name) :
    pick style names read = pick style names read' := by
  have hfields : names.map (fun name => (name, read name)) =
      names.map fun name => (name, read' name) :=
    List.map_congr_left fun name hname => by rw [h name hname]
  rw [pick, pick, hfields]

theorem eq_null_of_isNull {v : Value} (h : v.isNull = true) : v = .null := by
  cases v with
  | null => rfl
  | _ => cases h

theorem prop_pick (style : Style) (names : List Text) (read : Text → Value) (name : Text) :
    (pick style names read).prop name = if name ∈ names then read name else .null := by
  simp only [pick, prop]
  induction names with
  | nil => rfl
  | cons other names ih =>
    by_cases hnull : (read other).isNull = true
    · have hleft : ((other :: names).map fun name => (name, read name)).filter
          (fun field => !field.2.isNull) = (names.map fun name => (name, read name)).filter
          fun field => !field.2.isNull := by simp [hnull]
      rw [hleft, ih]
      by_cases hn : name = other
      · -- A property that is null reads as one that is absent.
        subst hn
        simp [eq_null_of_isNull hnull]
      · simp [hn]
    · have hleft : ((other :: names).map fun name => (name, read name)).filter
          (fun field => !field.2.isNull) = (other, read other) ::
          (names.map fun name => (name, read name)).filter fun field => !field.2.isNull := by
        simp [hnull]
      rw [hleft]
      by_cases hn : name = other
      · subst hn
        simp
      · rw [Entries.lookup_cons_ne hn, ih]
        simp [hn]

end Value

namespace Walk

/-! ### Erasing -/

/-- The properties that are kept of a node: its type, its label and its children. -/
def keptNames (label : Text) (r : Rule) : List Text :=
  (("type" : Text) :: label :: r.childTexts).dedup

mutual

/-- What is kept of a value below the root: a node of known type with what is kept of
its children, and the nodes of known types in a list. -/
def erase (g : Grammar) (label : Text) : Value → Value
  | .object style fields =>
    match ruleOf g (.object style fields) with
    | none => .null
    | some r => .pick style (keptNames label r) fun name =>
      if name = "type" ∨ name = label then (Value.object style fields).prop name
      else ((eraseFields g label fields).lookup name).getD .null
  | .list items => .list (eraseItems g label items)
  | _ => .null

def eraseItems (g : Grammar) (label : Text) : List Value → List Value
  | [] => []
  | v :: rest =>
    if (ruleOf g v).isSome then erase g label v :: eraseItems g label rest
    else eraseItems g label rest

def eraseFields (g : Grammar) (label : Text) : List (Text × Value) → List (Text × Value)
  | [] => []
  | (k, v) :: rest => (k, erase g label v) :: eraseFields g label rest

end

/-- A tree of which only the body is kept, erased. -/
def eraseTree (g : Grammar) (label : Text) (tree : Value) : Value :=
  .mapping [("body", erase g label (tree.prop "body"))]

variable {g : Grammar} {label : Text}

theorem eraseItems_eq (items : List Value) :
    eraseItems g label items =
      (items.filter fun v => (ruleOf g v).isSome).map (erase g label) := by
  induction items with
  | nil => rfl
  | cons v rest ih =>
    by_cases h : (ruleOf g v).isSome = true
    · simp [eraseItems, h, ih]
    · simp [eraseItems, h, ih]

theorem lookup_eraseFields (fields : List (Text × Value)) (name : Text) :
    (eraseFields g label fields).lookup name = (fields.lookup name).map (erase g label) := by
  induction fields with
  | nil => rfl
  | cons field rest ih =>
    obtain ⟨k, v⟩ := field
    by_cases h : name = k
    · subst h
      simp [eraseFields]
    · rw [eraseFields, Entries.lookup_cons_ne h, Entries.lookup_cons_ne h, ih]

theorem erase_object {style : Style} {fields : List (Text × Value)} {r : Rule}
    (rule : ruleOf g (.object style fields) = some r) :
    erase g label (.object style fields) = .pick style (keptNames label r) fun name =>
      if name = "type" ∨ name = label then (Value.object style fields).prop name
      else erase g label ((Value.object style fields).prop name) := by
  rw [erase, rule]
  refine Value.pick_congr fun name _ => ?_
  rw [lookup_eraseFields, Value.prop]
  cases fields.lookup name <;> rfl

theorem prop_erase {v : Value} {r : Rule} (rule : ruleOf g v = some r) (name : Text) :
    (erase g label v).prop name =
      if name = "type" ∨ name = label then v.prop name
      else if name ∈ r.childTexts then erase g label (v.prop name) else .null := by
  obtain ⟨style, fields, rfl⟩ := Value.exists_fields_of_isNode (isNode_of_ruleOf rule)
  rw [erase_object rule]
  simp only [Value.prop_pick, keptNames, List.mem_dedup, List.mem_cons]
  by_cases ht : name = "type"
  · simp [ht]
  · by_cases hl : name = label
    · simp [hl]
    · simp [ht, hl]

/-- Nothing is left of a node but what its rule declares. -/
theorem erase_eq_of_kept {style : Style} {fields fields' : List (Text × Value)} {r : Rule}
    (rule : ruleOf g (.object style fields) = some r)
    (h : ∀ name ∈ keptNames label r,
      (Value.object style fields').prop name = (Value.object style fields).prop name) :
    erase g label (.object style fields') = erase g label (.object style fields) := by
  have htype : (Value.object style fields').prop "type" = (Value.object style fields).prop "type" :=
    h "type" (List.mem_dedup.mpr List.mem_cons_self)
  have rule' : ruleOf g (.object style fields') = some r := by
    rw [ruleOf, Value.type?, htype]
    exact rule
  rw [erase_object rule, erase_object rule']
  exact Value.pick_congr fun name hname => by rw [h name hname]

theorem erase_eq_null {v : Value} (hv : v.isNode = true) (rule : ruleOf g v = none) :
    erase g label v = .null := by
  obtain ⟨style, fields, rfl⟩ := Value.exists_fields_of_isNode hv
  rw [erase, rule]

theorem type?_erase {v : Value} {r : Rule} (rule : ruleOf g v = some r) :
    (erase g label v).type? = v.type? := by
  rw [Value.type?, prop_erase rule, if_pos (.inl rfl), Value.type?]

theorem prop_label_erase {v : Value} {r : Rule} (rule : ruleOf g v = some r) :
    (erase g label v).prop label = v.prop label := by
  rw [prop_erase rule, if_pos (.inr rfl)]

theorem ruleOf_erase {v : Value} {r : Rule} (rule : ruleOf g v = some r) :
    ruleOf g (erase g label v) = some r := by
  rw [ruleOf, type?_erase rule]
  exact rule

theorem ruleOf_erase_eq_none {v : Value} (rule : ruleOf g v = none) :
    ruleOf g (erase g label v) = none := by
  cases v with
  | object style fields => rw [erase, rule]; rfl
  | list items => rfl
  | _ => rfl

/-! ### Children -/

theorem Occurrence.children_eq_error {o : Occurrence} {r : Rule} {fault : Fault} :
    o.children r = .error fault ↔ r.childrenOf o.node = .error fault := by
  unfold children
  cases r.childrenOf o.node <;> simp [Except.map]

def known (g : Grammar) (cs : List (Slot × Value)) : List Value :=
  (cs.map Prod.snd).filter fun v => (ruleOf g v).isSome

theorem known_append (as bs : List (Slot × Value)) :
    known g (as ++ bs) = known g as ++ known g bs := by
  rw [known, List.map_append, List.filter_append]
  rfl

theorem known_nodesAt_list (n : Nat) (items : List Value) :
    known g ((Value.list items).nodesAt n) = items.filter fun v => (ruleOf g v).isSome := by
  have hnodes : ((Value.list items).nodesAt n).map Prod.snd = items.filter Value.isNode := by
    have hzip : (items.zipIdx.filter fun item => item.1.isNode).map Prod.fst =
        items.filter Value.isNode := by
      rw [← List.zipIdx_map_fst 0 items, List.filter_map]
      simp [Function.comp_def]
    rw [Value.nodesAt, List.map_map, ← hzip]
    rfl
  rw [known, hnodes, List.filter_filter]
  refine List.filter_congr fun v _ => ?_
  cases hr : ruleOf g v with
  | none => rfl
  | some r => simp [isNode_of_ruleOf hr]

theorem known_nodesAt_of_some {n : Nat} {v : Value} {r : Rule} (rule : ruleOf g v = some r) :
    known g (v.nodesAt n) = [v] := by
  obtain ⟨style, fields, rfl⟩ := Value.exists_fields_of_isNode (isNode_of_ruleOf rule)
  simp only [Value.nodesAt, isNode_of_ruleOf rule, if_true, known]
  simp [rule]

theorem known_nodesAt_of_none {n : Nat} {style : Style} {fields : List (Text × Value)}
    (rule : ruleOf g (.object style fields) = none) :
    known g ((Value.object style fields).nodesAt n) = [] := by
  simp only [Value.nodesAt]
  split
  · simp [known, rule]
  · rfl

theorem known_nodesAt_erase (m n : Nat) (v : Value) :
    known g ((erase g label v).nodesAt m) = (known g (v.nodesAt n)).map (erase g label) := by
  cases v with
  | list items =>
    -- The items that are left are of known types still, so none is passed over now.
    rw [erase, known_nodesAt_list, known_nodesAt_list, eraseItems_eq]
    refine List.filter_eq_self.mpr fun v hv => ?_
    obtain ⟨w, hw, rfl⟩ := List.mem_map.mp hv
    obtain ⟨r, hr⟩ := Option.isSome_iff_exists.mp (List.mem_filter.mp hw).2
    rw [ruleOf_erase hr]
    rfl
  | object style fields =>
    cases rule : ruleOf g (.object style fields) with
    | none =>
      rw [erase, rule, known_nodesAt_of_none rule]
      rfl
    | some r =>
      rw [known_nodesAt_of_some rule, known_nodesAt_of_some (ruleOf_erase rule)]
      rfl
  | _ => rfl

/-- A node and itself, or what is kept of it. -/
def Alike (g : Grammar) (label : Text) (v w : Value) : Prop := w = v ∨ w = erase g label v

theorem forall₂_alike_refl (vs : List Value) : List.Forall₂ (Alike g label) vs vs :=
  List.forall₂_same.mpr fun _ _ => .inl rfl

theorem forall₂_alike_erase (vs : List Value) :
    List.Forall₂ (Alike g label) vs (vs.map (erase g label)) := by
  rw [List.forall₂_map_right_iff]
  exact List.forall₂_same.mpr fun _ _ => .inr rfl

/-- Two answers to the search for children: the same fault, or children whose nodes of
known types are alike. -/
def SameChildren (g : Grammar) (label : Text) :
    Except Fault (List (Slot × Value)) → Except Fault (List (Slot × Value)) → Prop
  | .ok cs, .ok ds => List.Forall₂ (Alike g label) (known g cs) (known g ds)
  | .error fault, .error fault' => fault = fault'
  | _, _ => False

theorem SameChildren.refl (x : Except Fault (List (Slot × Value))) :
    SameChildren g label x x := by
  cases x with
  | ok cs => exact forall₂_alike_refl _
  | error fault => rfl

theorem SameChildren.eq_error {fault : Fault} {y : Except Fault (List (Slot × Value))}
    (h : SameChildren g label (.error fault) y) : y = .error fault := by
  cases y with
  | error fault' => cases h; rfl
  | ok ds => exact h.elim

theorem SameChildren.exists_ok {cs : List (Slot × Value)}
    {y : Except Fault (List (Slot × Value))} (h : SameChildren g label (.ok cs) y) :
    ∃ ds, y = .ok ds ∧ List.Forall₂ (Alike g label) (known g cs) (known g ds) := by
  cases y with
  | error fault => exact h.elim
  | ok ds => exact ⟨ds, rfl, h⟩

/-- What is not text finds nothing in any object, or fails by the style of it alone. -/
theorem propNamed_of_not_text {name : Entry} (h : name.text? = none) (style : Style)
    (fields fields' : List (Text × Value)) :
    (Value.object style fields).propNamed name = (Value.object style fields').propNamed name := by
  cases name with
  | data v =>
    cases v with
    | text s => cases h
    | _ => cases style <;> rfl
  | _ => cases style <;> rfl

theorem propNamed_erase {v : Value} {r : Rule} (rule : ruleOf g v = some r) {name : Entry}
    (hname : name ∈ r.children) (n : Nat) :
    SameChildren g label ((v.propNamed name).map (Value.nodesAt n))
      (((erase g label v).propNamed name).map (Value.nodesAt n)) := by
  cases ht : name.text? with
  | some s =>
    obtain rfl := Entry.eq_of_text? ht
    have hs : s ∈ r.childTexts := List.mem_filterMap.mpr ⟨_, hname, ht⟩
    show List.Forall₂ _ (known g ((v.prop s).nodesAt n))
      (known g (((erase g label v).prop s).nodesAt n))
    rw [prop_erase rule]
    by_cases hkept : s = "type" ∨ s = label
    · rw [if_pos hkept]
      exact forall₂_alike_refl _
    · rw [if_neg hkept, if_pos hs, known_nodesAt_erase n n]
      exact forall₂_alike_erase _
  | none =>
    obtain ⟨style, fields, rfl⟩ := Value.exists_fields_of_isNode (isNode_of_ruleOf rule)
    obtain ⟨fields', he⟩ : ∃ fields', erase g label (.object style fields) =
        .object style fields' := ⟨_, erase_object rule⟩
    rw [he, propNamed_of_not_text ht style fields' fields]
    exact .refl _

theorem SameChildren.append : ∀ {x y x' y' : Except Fault (List (Slot × Value))},
    SameChildren g label x y → SameChildren g label x' y' →
      SameChildren g label (x.bind fun as => x'.map (as ++ ·)) (y.bind fun as => y'.map (as ++ ·))
  | .error _, .error _, _, _, h, _ => h
  | .error _, .ok _, _, _, h, _ => h.elim
  | .ok _, .error _, _, _, h, _ => h.elim
  | .ok _, .ok _, .error _, .error _, _, h => h
  | .ok _, .ok _, .error _, .ok _, _, h => h.elim
  | .ok _, .ok _, .ok _, .error _, _, h => h.elim
  | .ok as, .ok bs, .ok as', .ok bs', h, h' => by
    show List.Forall₂ _ (known g (as ++ as')) (known g (bs ++ bs'))
    rw [known_append, known_append]
    exact List.rel_append h h'

theorem childrenFrom_cons (v : Value) (n : Nat) (name : Entry) (rest : List Entry) :
    v.childrenFrom n (name :: rest) =
      ((v.propNamed name).map (Value.nodesAt n)).bind fun as =>
        (v.childrenFrom (n + 1) rest).map (as ++ ·) := by
  simp only [Value.childrenFrom, bind, Except.bind]
  cases v.propNamed name with
  | error fault => rfl
  | ok found => cases v.childrenFrom (n + 1) rest <;> rfl

theorem childrenFrom_erase {v : Value} {r : Rule} (rule : ruleOf g v = some r)
    {names : List Entry} (hnames : ∀ name ∈ names, name ∈ r.children) (n : Nat) :
    SameChildren g label (v.childrenFrom n names) ((erase g label v).childrenFrom n names) := by
  induction names generalizing n with
  | nil => exact List.Forall₂.nil
  | cons name rest ih =>
    rw [childrenFrom_cons, childrenFrom_cons]
    exact (propNamed_erase rule (hnames name List.mem_cons_self) n).append
      (ih (fun name' h => hnames name' (List.mem_cons_of_mem name h)) (n + 1))

theorem childrenOf_alike {v w : Value} {r : Rule} (rule : ruleOf g v = some r)
    (h : Alike g label v w) : SameChildren g label (r.childrenOf v) (r.childrenOf w) := by
  rcases h with rfl | rfl
  · exact .refl _
  · exact childrenFrom_erase rule (fun _ h => h) 0

/-! ### What is reported -/

/-- What a consumer is told if it knows nodes by their types and labels. -/
def Event.seen (label : Text) (e : Event) : Signal × Option Text × Value :=
  (e.signal, e.node.type?, e.node.prop label)

def Report.view (label : Text) (r : Report) :
    List (Signal × Option Text × Value) × Option Fault :=
  (r.events.map (Event.seen label), r.fault)

theorem Report.view_append {a b a' b' : Report} (ha : a.view label = a'.view label)
    (hb : b.view label = b'.view label) : (a ++ b).view label = (a' ++ b').view label := by
  obtain ⟨hevents, hfault⟩ := Prod.mk.inj ha
  obtain ⟨hevents', hfault'⟩ := Prod.mk.inj hb
  cases hf : a.fault with
  | some fault =>
    rw [Report.append_of_some hf, Report.append_of_some (hfault.symm.trans hf)]
    exact ha
  | none =>
    rw [Report.append_of_none hf, Report.append_of_none (hfault.symm.trans hf)]
    simp only [Report.view, List.map_append, hevents, hevents', hfault']

theorem describeAll_eq_filter (os : List Occurrence) :
    describeAll g os = describeAll g (os.filter fun o => (ruleOf g o.node).isSome) := by
  induction os with
  | nil => rfl
  | cons o os ih =>
    cases rule : ruleOf g o.node with
    | none =>
      have hleft : (o :: os).filter (fun o => (ruleOf g o.node).isSome) =
          os.filter fun o => (ruleOf g o.node).isSome := by simp [rule]
      rw [hleft, describeAll_cons, describe_skip rule, ih]
      exact Report.append_of_none rfl _
    | some r =>
      have hleft : (o :: os).filter (fun o => (ruleOf g o.node).isSome) =
          o :: os.filter fun o => (ruleOf g o.node).isSome := by simp [rule]
      rw [hleft, describeAll_cons, describeAll_cons, ih]

theorem view_describeAll {os os' : List Occurrence}
    (h : List.Forall₂ (fun o o' => (describe g o').view label = (describe g o).view label) os os') :
    (describeAll g os').view label = (describeAll g os).view label := by
  induction h with
  | nil => rfl
  | cons hfirst _ ih =>
    rw [describeAll_cons, describeAll_cons]
    exact Report.view_append hfirst ih

/-- Children are reported alike if those of known types are alike, wherever they stand. -/
theorem view_children {o o' : Occurrence} {cs cs' : List (Slot × Value)}
    (ih : ∀ c ∈ cs.map o.child, ∀ o', Alike g label c.node o'.node →
      (describe g o').view label = (describe g c).view label)
    (h : List.Forall₂ (Alike g label) (known g cs) (known g cs')) :
    (describeAll g (cs'.map o'.child)).view label =
      (describeAll g (cs.map o.child)).view label := by
  have hpairs : List.Forall₂ (fun c c' => Alike g label c.2 c'.2)
      (cs.filter fun c => (ruleOf g c.2).isSome) (cs'.filter fun c => (ruleOf g c.2).isSome) := by
    rw [known, known, List.filter_map, List.filter_map, List.forall₂_map_left_iff,
      List.forall₂_map_right_iff] at h
    exact h
  have hmem : ∀ c ∈ cs.filter fun c => (ruleOf g c.2).isSome, o.child c ∈ cs.map o.child :=
    fun c hc => List.mem_map_of_mem (List.mem_filter.mp hc).1
  have hboth := (List.forall₂_and_left _ _).mpr ⟨hmem, hpairs⟩
  rw [describeAll_eq_filter (cs'.map o'.child), describeAll_eq_filter (cs.map o.child),
    List.filter_map, List.filter_map]
  refine view_describeAll ?_
  rw [List.forall₂_map_left_iff, List.forall₂_map_right_iff]
  exact hboth.imp fun c c' hc => ih (o.child c) hc.1 (o'.child c') hc.2

/-- A scope that is written out is the same for every node of a type. -/
def NoScopeComputed (g : Grammar) : Prop :=
  ∀ type r, g.rule? type = some r → r.newScope.isComputed = false

theorem opensScope_of_noScopeComputed (hg : NoScopeComputed g) {node : Value} {r : Rule}
    (rule : ruleOf g node = some r) (v : Value) :
    r.opensScope v = .ok r.newScope.shown.truthy := by
  obtain ⟨type, -, htype⟩ := Option.bind_eq_some_iff.mp rule
  exact Rule.opensScope_of_not_computed (hg type r htype) v

theorem opensScope_eq (hg : NoScopeComputed g) {node : Value} {r : Rule}
    (rule : ruleOf g node = some r) (v w : Value) : r.opensScope v = r.opensScope w := by
  rw [opensScope_of_noScopeComputed hg rule, opensScope_of_noScopeComputed hg rule]

theorem seen_of_alike {o o' : Occurrence} {r : Rule} (rule : ruleOf g o.node = some r)
    (h : Alike g label o.node o'.node) (signal : Signal) :
    Event.seen label ⟨signal, o'⟩ = Event.seen label ⟨signal, o⟩ := by
  simp only [Event.seen, Event.node]
  rcases h with h | h
  · rw [h]
  · rw [h, type?_erase rule, prop_label_erase rule]

theorem ruleOf_of_alike {v w : Value} {r : Rule} (rule : ruleOf g v = some r)
    (h : Alike g label v w) : ruleOf g w = some r := by
  rcases h with rfl | rfl
  · exact rule
  · exact ruleOf_erase rule

theorem view_entering {o o' : Occurrence} {r : Rule} (rule : ruleOf g o.node = some r)
    (h : Alike g label o.node o'.node) (opens : Bool) (fault : Option Fault) :
    (⟨entering opens o', fault⟩ : Report).view label =
      (⟨entering opens o, fault⟩ : Report).view label := by
  cases opens <;> simp [Report.view, entering, seen_of_alike rule h]

theorem view_leaving {o o' : Occurrence} {r : Rule} (rule : ruleOf g o.node = some r)
    (h : Alike g label o.node o'.node) (opens : Bool) :
    (⟨leaving opens o', none⟩ : Report).view label =
      (⟨leaving opens o, none⟩ : Report).view label := by
  cases opens <;> simp [Report.view, leaving, seen_of_alike rule h]

/-- What is kept of a node is reported as the node is. -/
theorem view_describe (hg : NoScopeComputed g) (o : Occurrence) :
    ∀ o' : Occurrence, Alike g label o.node o'.node →
      (describe g o').view label = (describe g o).view label := by
  -- The other occurrence stays open: erased nodes stand in other slots than the nodes did.
  induction o using visit_induction g with
  | skip o rule =>
    intro o' h
    have rule' : ruleOf g o'.node = none := by
      rcases h with h | h
      · rw [h, rule]
      · rw [h, ruleOf_erase_eq_none rule]
    rw [describe_skip rule, describe_skip rule']
  | scopeFault o r fault rule scope =>
    rw [opensScope_of_noScopeComputed hg rule] at scope
    cases scope
  | childFault o r opens fault rule scope found =>
    intro o' h
    have rule' := ruleOf_of_alike rule h
    have scope' := (opensScope_eq hg rule o'.node o.node).trans scope
    have hsame := childrenOf_alike rule h
    rw [Occurrence.children_eq_error.mp found] at hsame
    rw [describe_childFault rule scope found,
      describe_childFault rule' scope' (Occurrence.children_eq_error.mpr hsame.eq_error),
      view_entering rule h]
  | descend o r opens os rule scope found ih =>
    intro o' h
    have rule' := ruleOf_of_alike rule h
    have scope' := (opensScope_eq hg rule o'.node o.node).trans scope
    have hsame := childrenOf_alike rule h
    obtain ⟨cs, hcs, rfl⟩ := Occurrence.children_eq_ok.mp found
    rw [hcs] at hsame
    obtain ⟨cs', hcs', hknown⟩ := hsame.exists_ok
    rw [describe_descend rule scope found,
      describe_descend rule' scope' (Occurrence.children_eq_ok.mpr ⟨cs', hcs', rfl⟩)]
    exact Report.view_append (view_entering rule h opens none)
      (Report.view_append (view_children ih hknown) (view_leaving rule h opens))

theorem view_describeTree_erase (hg : NoScopeComputed g) (tree : Value) :
    (describeTree g (eraseTree g label tree)).view label = (describeTree g tree).view label := by
  have hbody : (eraseTree g label tree).prop "body" = erase g label (tree.prop "body") := rfl
  have hknown : List.Forall₂ (Alike g label) (known g ((tree.prop "body").nodesAt 0))
      (known g (((eraseTree g label tree).prop "body").nodesAt 0)) := by
    rw [hbody, known_nodesAt_erase 0 0]
    exact forall₂_alike_erase _
  rw [describeTree_eq, describeTree_eq]
  exact view_children (fun c _ => view_describe hg c) hknown

/-! ### Consumers that know nodes by their labels -/

/-- A consumer that is told no more of a node than its type and its label. -/
def Consumer.Blind {σ : Type} (c : Consumer σ) (label : Text) : Prop :=
  ∀ own e e', e.seen label = e'.seen label → c own e = c own e'

section Blind

variable {σ : Type} {c : Consumer σ}

theorem feed_of_blind (hc : c.Blind label) {es es' : List Event}
    (h : es.map (Event.seen label) = es'.map (Event.seen label)) (own : σ) :
    feed c own es = feed c own es' := by
  induction es generalizing es' own with
  | nil =>
    obtain rfl := List.map_eq_nil_iff.mp h.symm
    rfl
  | cons e es ih =>
    obtain ⟨e', es'', rfl, he, hes⟩ := List.map_eq_cons_iff.mp h.symm
    rw [feed_cons, feed_cons, hc own e e' he.symm]
    simp only [ih hes.symm]

theorem taken_of_blind (hc : c.Blind label) {es es' : List Event}
    (h : es.map (Event.seen label) = es'.map (Event.seen label)) (own : σ) :
    (taken c own es).map (Event.seen label) = (taken c own es').map (Event.seen label) := by
  induction es generalizing es' own with
  | nil =>
    obtain rfl := List.map_eq_nil_iff.mp h.symm
    rfl
  | cons e es ih =>
    obtain ⟨e', es'', rfl, he, hes⟩ := List.map_eq_cons_iff.mp h.symm
    simp only [taken, hc own e e' he.symm]
    rcases c own e' with ⟨next, _ | fault⟩
    · rw [List.map_cons, List.map_cons, ih hes.symm, he]
    · rw [List.map_singleton, List.map_singleton, he]

theorem walk_of_blind (hc : c.Blind label) {tree tree' : Value}
    (h : (describeTree g tree).view label = (describeTree g tree').view label) (own : σ) :
    walk g tree c own = walk g tree' c own ∧
      (calls g tree c own).map (Event.seen label) =
        (calls g tree' c own).map (Event.seen label) := by
  obtain ⟨hevents, hfault⟩ := Prod.mk.inj h
  refine ⟨?_, ?_⟩
  · rw [walk_eq_feed, walk_eq_feed, Report.feed, Report.feed, feed_of_blind hc hevents, hfault]
  · rw [calls_eq_taken, calls_eq_taken]
    exact taken_of_blind hc hevents own

end Blind

/-- If no scope is worked out from a node, a walk of what is kept of a tree reports the
same of nodes with the same types and labels, and fails alike.  So consumers that know
nodes by these cannot tell two trees apart of which the same is kept, and nothing is kept
of a node of unknown type, nor of what is not declared for a type. -/
theorem erased_unseen (g : Grammar) (label : Text) (hg : NoScopeComputed g) (tree : Value) :
    (report g (eraseTree g label tree)).events.map (Event.seen label) =
        (report g tree).events.map (Event.seen label) ∧
      (report g (eraseTree g label tree)).fault = (report g tree).fault ∧
      (∀ tree', eraseTree g label tree' = eraseTree g label tree →
        ∀ {σ : Type} (c : Consumer σ), c.Blind label → ∀ own,
          walk g tree' c own = walk g tree c own ∧
            (calls g tree' c own).map (Event.seen label) =
              (calls g tree c own).map (Event.seen label)) ∧
      (∀ v : Value, v.isNode = true → ruleOf g v = none → erase g label v = .null) ∧
      ∀ style fields fields' r, ruleOf g (.object style fields) = some r →
        (∀ name ∈ keptNames label r,
          (Value.object style fields').prop name = (Value.object style fields).prop name) →
        erase g label (.object style fields') = erase g label (.object style fields) := by
  have hview : ∀ tree, (describeTree g (eraseTree g label tree)).view label =
      (describeTree g tree).view label := view_describeTree_erase hg
  obtain ⟨hevents, hfault⟩ := Prod.mk.inj (hview tree)
  rw [report_eq_describeTree, report_eq_describeTree]
  refine ⟨hevents, hfault, fun tree' h σ c hc own => walk_of_blind hc ?_ own,
    fun v hv rule => erase_eq_null hv rule,
    fun style fields fields' r rule h => erase_eq_of_kept rule h⟩
  rw [← hview tree', ← hview tree, h]

theorem noScopeComputed_standard : NoScopeComputed .standard := by
  intro type r h
  have hstatic := Grammar.isStatic_of_standard h
  simp only [Rule.isStatic, Bool.and_eq_true, Bool.not_eq_true'] at hstatic
  exact hstatic.2

/-- What a label stands before is not seen. -/
theorem erased_unseen_labelled :
    let fields (body : Value) : List (Text × Value) :=
      [("type", .text "LabeledStatement"), ("nid", .int 1), ("body", body)]
    let labelled (body : Value) : Value :=
      .mapping [("type", .text "Program"), ("body", .list [.object .mapping (fields body)])]
    let hidden : Value := .mapping [("type", .text "DebuggerStatement")]
    let logger : Consumer (List (Signal × Option Text × Value)) :=
      fun past e => (past ++ [e.seen "nid"], none)
    NoScopeComputed .standard ∧
      walk .standard (labelled hidden) logger [] = walk .standard (labelled .null) logger [] := by
  intro fields labelled hidden logger
  have hrule : Grammar.standard.rule? "LabeledStatement" = some (.ofFields []) :=
    Grammar.rule?_standard_eq_some.mpr ⟨.es5, [], List.mem_of_getElem? (i := 19) rfl, rfl⟩
  have rule : ∀ body, ruleOf .standard (.object .mapping (fields body)) = some (.ofFields []) :=
    fun body => by
      have htype : (Value.object .mapping (fields body)).type? =
          some (Text.ofString "LabeledStatement") := rfl
      rw [ruleOf, htype, Option.bind_some, hrule]
  have hkept : erase .standard "nid" (.object .mapping (fields hidden)) =
      erase .standard "nid" (.object .mapping (fields .null)) := by
    refine erase_eq_of_kept (rule .null) fun name hname => ?_
    have hnames : name = "type" ∨ name = "nid" := by
      simpa [keptNames, Rule.childTexts, Rule.ofFields, Rule.entryAt, Entry.members,
        Value.members, Entry.absent] using hname
    rcases hnames with rfl | rfl <;> rfl
  have hitems : ∀ body, eraseItems .standard "nid" [.object .mapping (fields body)] =
      [erase .standard "nid" (.object .mapping (fields body))] := fun body => by
    rw [eraseItems, rule]
    rfl
  have hsame : eraseTree .standard "nid" (labelled hidden) =
      eraseTree .standard "nid" (labelled .null) := by
    show Value.mapping [("body", .list (eraseItems .standard "nid"
        [.object .mapping (fields hidden)]))] =
      Value.mapping [("body", .list (eraseItems .standard "nid"
        [.object .mapping (fields .null)]))]
    rw [hitems, hitems, hkept]
  have hblind : logger.Blind "nid" := fun own e e' h => by
    show (own ++ [e.seen "nid"], none) = (own ++ [e'.seen "nid"], none)
    rw [h]
  obtain ⟨-, -, halike, -⟩ :=
    erased_unseen .standard "nid" noScopeComputed_standard (labelled .null)
  exact ⟨noScopeComputed_standard, (halike (labelled hidden) hsame logger hblind []).1⟩

end Walk

end Estree
