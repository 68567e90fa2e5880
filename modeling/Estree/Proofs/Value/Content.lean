import Estree.Proofs.Grammar.Standard

/-!
The content of a value: the same data with every object as a mapping.

Styling a value does not touch its content, `content_styled`.  Properties, types and
children are the same for a value and its content, and a value without objects is its
content.  Truth is not: an empty record is true and an empty mapping false.
-/

namespace Estree

namespace Value

/-- A value that holds no others. -/
def isScalar : Value → Bool
  | .list _ => false
  | .object _ _ => false
  | _ => true

/-- What holds of scalars, and of lists and objects if it holds of what they hold, holds
of every value. -/
@[elab_as_elim]
theorem nested_induction {P : Value → Prop} (scalar : ∀ v : Value, v.isScalar = true → P v)
    (list : ∀ items : List Value, (∀ v ∈ items, P v) → P (.list items))
    (object : ∀ (style : Style) (fields : List (Text × Value)), (∀ e ∈ fields, P e.2) →
      P (.object style fields)) (v : Value) : P v :=
  match v with
  | .list items => list items fun w _ => nested_induction scalar list object w
  | .object style fields =>
    object style fields fun e _ => nested_induction scalar list object e.2
  | .null => scalar _ rfl
  | .bool _ => scalar _ rfl
  | .int _ => scalar _ rfl
  | .float _ => scalar _ rfl
  | .text _ => scalar _ rfl
  | .moment _ => scalar _ rfl
termination_by sizeOf v
decreasing_by
  · rename_i h
    have hlt := List.sizeOf_lt_of_mem h
    simp only [Value.list.sizeOf_spec]
    omega
  · rename_i h
    have hlt := List.sizeOf_lt_of_mem h
    have hpair : sizeOf e = 1 + sizeOf e.1 + sizeOf e.2 := rfl
    simp only [Value.object.sizeOf_spec]
    omega

/-! ### Styles -/

theorem styled_of_isScalar {v : Value} (h : v.isScalar = true) (style : Nat → Style)
    (depth : Nat) : v.styled style depth = v := by
  cases v with
  | list items => cases h
  | object _ fields => cases h
  | _ => rfl

theorem styled_list (style : Nat → Style) (depth : Nat) (items : List Value) :
    (Value.list items).styled style depth = .list (items.map (styled style depth)) := by
  rw [styled]
  congr 1
  induction items with
  | nil => rfl
  | cons v rest ih => rw [styledList, ih, List.map_cons]

theorem styled_object (style : Nat → Style) (depth : Nat) (s : Style)
    (fields : List (Text × Value)) :
    (Value.object s fields).styled style depth =
      .object (style depth) (fields.map fun e => (e.1, e.2.styled style (depth + 1))) := by
  rw [styled]
  congr 1
  induction fields with
  | nil => rfl
  | cons e rest ih => rw [styledFields, ih, List.map_cons]

/-- The same data with every object as a mapping. -/
def content (v : Value) : Value := v.styled (fun _ => .mapping) 0

theorem styled_mapping (v : Value) (depth : Nat) :
    v.styled (fun _ => .mapping) depth = v.content := by
  induction v using nested_induction generalizing depth with
  | scalar v h => rw [content, styled_of_isScalar h, styled_of_isScalar h]
  | list items ih =>
    rw [content, styled_list, styled_list]
    exact congrArg Value.list (List.map_congr_left fun v hv => ih v hv depth)
  | object style fields ih =>
    rw [content, styled_object, styled_object]
    refine congrArg mapping (List.map_congr_left fun e he => ?_)
    rw [ih e he (depth + 1), ih e he (0 + 1)]

@[simp] theorem content_list (items : List Value) :
    (Value.list items).content = .list (items.map content) := styled_list _ 0 items

@[simp] theorem content_object (style : Style) (fields : List (Text × Value)) :
    (Value.object style fields).content = mapping (fields.map fun e => (e.1, e.2.content)) := by
  rw [content, styled_object]
  simp only [styled_mapping]

theorem content_of_isScalar {v : Value} (h : v.isScalar = true) : v.content = v :=
  styled_of_isScalar h _ 0

@[simp] theorem content_null : Value.null.content = .null := rfl

@[simp] theorem content_text (s : Text) : (Value.text s).content = .text s := rfl

@[simp] theorem content_bool (b : Bool) : (Value.bool b).content = .bool b := rfl

@[simp] theorem content_int (i : Int) : (Value.int i).content = .int i := rfl

theorem content_styled (v : Value) (style : Nat → Style) (depth : Nat) :
    (v.styled style depth).content = v.content := by
  induction v using nested_induction generalizing depth with
  | scalar v h => rw [styled_of_isScalar h]
  | list items ih =>
    rw [styled_list, content_list, content_list, List.map_map]
    exact congrArg Value.list (List.map_congr_left fun v hv => ih v hv depth)
  | object s fields ih =>
    rw [styled_object, content_object, content_object, List.map_map]
    refine congrArg mapping (List.map_congr_left fun e he => ?_)
    show (e.1, (e.2.styled style (depth + 1)).content) = _
    rw [ih e he]

/-! ### Reading the content -/

@[simp] theorem prop_content (v : Value) (name : Text) :
    v.content.prop name = (v.prop name).content := by
  cases v with
  | object style fields =>
    have hl : (fields.map fun e => (e.1, e.2.content)).lookup name =
        (fields.lookup name).map content :=
      Entries.lookup_map (f := id) (fun _ _ h => h) (fun _ => content) name fields
    rw [content_object]
    show ((fields.map fun e => (e.1, e.2.content)).lookup name).getD .null =
      ((fields.lookup name).getD .null).content
    rw [hl]
    cases fields.lookup name <;> rfl
  | list items => rw [content_list]; rfl
  | _ => rfl

@[simp] theorem follow_content (v : Value) (names : List Text) :
    v.content.follow names = (v.follow names).content := by
  induction names generalizing v with
  | nil => rfl
  | cons name names ih =>
    show (v.content.prop name).follow names = ((v.prop name).follow names).content
    rw [prop_content, ih]

@[simp] theorem text?_content (v : Value) : v.content.text? = v.text? := by
  cases v with
  | list items => rw [content_list]; rfl
  | object style fields => rw [content_object]; rfl
  | _ => rfl

@[simp] theorem int?_content (v : Value) : v.content.int? = v.int? := by
  cases v with
  | list items => rw [content_list]; rfl
  | object style fields => rw [content_object]; rfl
  | _ => rfl

@[simp] theorem isNull_content (v : Value) : v.content.isNull = v.isNull := by
  cases v with
  | list items => rw [content_list]; rfl
  | object style fields => rw [content_object]; rfl
  | _ => rfl

@[simp] theorem type?_content (v : Value) : v.content.type? = v.type? := by
  rw [type?, prop_content, text?_content, ← type?]

@[simp] theorem isNode_content (v : Value) : v.content.isNode = v.isNode := by
  rw [isNode, type?_content, ← isNode]

@[simp] theorem isA_content (v : Value) (type : Text) : v.content.isA type = v.isA type := by
  rw [isA, type?_content, ← isA]

/-- The line is a number or null, so it has no style. -/
@[simp] theorem line_content (v : Value) : v.content.line = v.line := by
  simp only [line, follow_content, int?_content]
  cases v.follow ["loc", "start", "line"] with
  | list items => rfl
  | object style fields => rfl
  | _ => rfl

@[simp] theorem content_line (v : Value) : v.line.content = v.line := by
  simp only [line]
  cases v.follow ["loc", "start", "line"] with
  | list items => rfl
  | object style fields => rfl
  | _ => rfl

theorem nodesAt_content (n : Nat) (v : Value) :
    v.content.nodesAt n = (v.nodesAt n).map fun c => (c.1, c.2.content) := by
  cases v with
  | list items =>
    rw [content_list]
    simp only [nodesAt, List.zipIdx_map, List.filter_map, List.map_map]
    refine congrArg (List.map _) (List.filter_congr fun e _ => ?_)
    exact isNode_content e.1
  | object style fields =>
    have hnode := isNode_content (.object style fields)
    rw [content_object] at hnode ⊢
    simp only [nodesAt, hnode]
    by_cases h : (object style fields).isNode = true
    · rw [if_pos h, if_pos h, List.map_singleton, content_object]
    · rw [if_neg h, if_neg h, List.map_nil]
  | _ => rfl

/-- Children that are looked up under text are the same in every style. -/
theorem childrenFrom_content {names : List Entry} (h : ∀ name ∈ names, name.isText = true)
    (v : Value) (n : Nat) :
    v.content.childrenFrom n names =
      (v.childrenFrom n names).map (List.map fun c => (c.1, c.2.content)) := by
  induction names generalizing n with
  | nil => rfl
  | cons name names ih =>
    obtain ⟨s, rfl⟩ := Entry.exists_of_isText (h name List.mem_cons_self)
    have hrest := ih (fun name hn => h name (List.mem_cons_of_mem _ hn)) (n + 1)
    have hcons : ∀ w : Value, w.childrenFrom n (.data (.text s) :: names) =
        (w.childrenFrom (n + 1) names).map ((w.prop s).nodesAt n ++ ·) := fun w => by
      simp only [childrenFrom, propNamed, bind, Except.bind]
      cases w.childrenFrom (n + 1) names <;> rfl
    rw [hcons, hcons, hrest, prop_content, nodesAt_content]
    cases v.childrenFrom (n + 1) names with
    | error fault => rfl
    | ok more => exact congrArg Except.ok List.map_append.symm

/-! ### What stands everywhere in a value -/

mutual

/-- A value and all that it holds, at any depth, are so. -/
def everywhere (p : Value → Bool) : Value → Bool
  | .list items => p (.list items) && everywhereIn p items
  | .object style fields => p (.object style fields) && everywhereUnder p fields
  | .null => p .null
  | .bool b => p (.bool b)
  | .int i => p (.int i)
  | .float x => p (.float x)
  | .text s => p (.text s)
  | .moment m => p (.moment m)

def everywhereIn (p : Value → Bool) : List Value → Bool
  | [] => true
  | v :: rest => everywhere p v && everywhereIn p rest

def everywhereUnder (p : Value → Bool) : List (Text × Value) → Bool
  | [] => true
  | (_, v) :: rest => everywhere p v && everywhereUnder p rest

end

section Everywhere

variable {p : Value → Bool}

theorem everywhereIn_eq_true {items : List Value} :
    everywhereIn p items = true ↔ ∀ v ∈ items, v.everywhere p = true := by
  induction items with
  | nil => exact iff_of_true rfl (List.forall_mem_nil _)
  | cons v rest ih => rw [everywhereIn, Bool.and_eq_true, ih, List.forall_mem_cons]

theorem everywhereUnder_eq_true {fields : List (Text × Value)} :
    everywhereUnder p fields = true ↔ ∀ e ∈ fields, e.2.everywhere p = true := by
  induction fields with
  | nil => exact iff_of_true rfl (List.forall_mem_nil _)
  | cons e rest ih => rw [everywhereUnder, Bool.and_eq_true, ih, List.forall_mem_cons]

theorem everywhere_self {v : Value} (h : v.everywhere p = true) : p v = true := by
  cases v with
  | list items => exact (Bool.and_eq_true_iff.mp h).1
  | object style fields => exact (Bool.and_eq_true_iff.mp h).1
  | _ => exact h

theorem everywhere_item {items : List Value} (h : (Value.list items).everywhere p = true) :
    ∀ v ∈ items, v.everywhere p = true :=
  everywhereIn_eq_true.mp (Bool.and_eq_true_iff.mp h).2

theorem everywhere_field {style : Style} {fields : List (Text × Value)}
    (h : (Value.object style fields).everywhere p = true) :
    ∀ e ∈ fields, e.2.everywhere p = true :=
  everywhereUnder_eq_true.mp (Bool.and_eq_true_iff.mp h).2

theorem everywhere_prop {v : Value} (hnull : p .null = true) (h : v.everywhere p = true)
    (name : Text) : (v.prop name).everywhere p = true := by
  cases v with
  | object style fields =>
    show ((fields.lookup name).getD .null).everywhere p = true
    cases hl : fields.lookup name with
    | none => exact hnull
    | some w => exact everywhere_field h (name, w) (Entries.mem_of_lookup hl)
  | _ => exact hnull

theorem everywhere_of_mem_nodesAt {n : Nat} {v : Value} (h : v.everywhere p = true)
    {c : Slot × Value} (hc : c ∈ v.nodesAt n) : c.2.everywhere p = true := by
  cases v with
  | list items =>
    obtain ⟨-, hitem, -⟩ := mem_nodesAt_list.mp hc
    exact everywhere_item h c.2 (List.mem_of_getElem? hitem)
  | object style fields =>
    simp only [nodesAt] at hc
    split at hc
    · rw [List.mem_singleton.mp hc]
      exact h
    · cases hc
  | _ => cases hc

theorem everywhere_of_mem_childrenFrom {v : Value} (hnull : p .null = true)
    (h : v.everywhere p = true) {n : Nat} {names : List Entry} {cs : List (Slot × Value)}
    (found : v.childrenFrom n names = .ok cs) {c : Slot × Value} (hc : c ∈ cs) :
    c.2.everywhere p = true := by
  obtain ⟨m, name, w, hw, hcw⟩ := exists_of_mem_childrenFrom found hc
  refine everywhere_of_mem_nodesAt ?_ hcw
  unfold propNamed at hw
  split at hw
  · cases hw
    exact everywhere_prop hnull h _
  · cases hk : name.checkKey with
    | error fault => rw [hk] at hw; cases hw
    | ok _ => rw [hk] at hw; cases hw; exact hnull
  · cases hw

end Everywhere

/-! ### Values without objects -/

def isObject : Value → Bool
  | .object _ _ => true
  | _ => false

/-- A value that is no object and holds none. -/
def objectFree (v : Value) : Bool := v.everywhere fun w => !w.isObject

def isEmptyObject : Value → Bool
  | .object _ fields => fields.isEmpty
  | _ => false

theorem everywhere_content {p : Value → Bool} (hp : ∀ v : Value, p v.content = p v) (v : Value) :
    v.content.everywhere p = v.everywhere p := by
  induction v using nested_induction with
  | scalar v h => rw [content_of_isScalar h]
  | list items ih =>
    have hself := hp (.list items)
    rw [content_list] at hself ⊢
    rw [everywhere, everywhere, hself, Bool.eq_iff_iff, Bool.and_eq_true, Bool.and_eq_true,
      everywhereIn_eq_true, everywhereIn_eq_true, List.forall_mem_map]
    exact and_congr_right fun _ => forall₂_congr fun v hv => by rw [ih v hv]
  | object style fields ih =>
    have hself := hp (.object style fields)
    rw [content_object] at hself ⊢
    rw [everywhere, everywhere, hself, Bool.eq_iff_iff, Bool.and_eq_true, Bool.and_eq_true,
      everywhereUnder_eq_true, everywhereUnder_eq_true, List.forall_mem_map]
    exact and_congr_right fun _ => forall₂_congr fun e he => by rw [ih e he]

@[simp] theorem isObject_content (v : Value) : v.content.isObject = v.isObject := by
  cases v with
  | list items => rw [content_list]; rfl
  | object style fields => rw [content_object]; rfl
  | _ => rfl

@[simp] theorem objectFree_content (v : Value) : v.content.objectFree = v.objectFree :=
  everywhere_content (fun v => congrArg Bool.not (isObject_content v)) v

@[simp] theorem isEmptyObject_content (v : Value) :
    v.content.isEmptyObject = v.isEmptyObject := by
  cases v with
  | list items => rw [content_list]; rfl
  | object style fields => rw [content_object]; exact List.isEmpty_map
  | _ => rfl

theorem content_of_objectFree {v : Value} (h : v.objectFree = true) : v.content = v := by
  induction v using nested_induction with
  | scalar v hv => exact content_of_isScalar hv
  | list items ih =>
    rw [content_list, List.map_congr_left fun v hv => ih v hv (everywhere_item h v hv),
      List.map_id']
  | object style fields ih => cases everywhere_self h

/-- The empty object is the one whose truth depends on its style. -/
theorem truthy_content {v : Value} (h : v.isEmptyObject = false) :
    v.content.truthy = v.truthy := by
  cases v with
  | list items => rw [content_list, truthy, truthy, List.isEmpty_map]
  | object style fields =>
    have hne : fields.isEmpty = false := h
    rw [content_object, truthy, List.isEmpty_map, hne]
    cases style
    · rw [truthy, hne]
    · rfl
  | _ => rfl

end Value

end Estree
