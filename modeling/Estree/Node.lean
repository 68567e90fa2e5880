import Estree.Entry

/-!
Reading nodes.  A node is an object whose `type` property is text; a property
that is absent, or asked of something that is no object, is null.
-/

namespace Estree

/-- Where a child stands below its node. -/
structure Slot where
  /-- The number of names looked under before that of its property. -/
  name : Nat
  /-- Its index in the list that the property holds, 0 for a node by itself. -/
  index : Nat
  deriving DecidableEq, Repr

namespace Value

/-- The property of that name, null if the value does not carry it. -/
def prop (v : Value) (name : Text) : Value :=
  match v with
  | .object _ fields => (fields.lookup name).getD .null
  | _ => .null

/-- The node type: the `type` property, if it is text. -/
def type? (v : Value) : Option Text := (v.prop "type").text?

def isNode (v : Value) : Bool := v.type?.isSome

/-- Whether a value is a node of that type. -/
def isA (v : Value) (type : Text) : Bool := v.type? == some type

/-- The value at the end of a chain of properties. -/
def follow (v : Value) (names : List Text) : Value := names.foldl prop v

/-- The line a node starts on: its `loc.start.line` if that is a whole number,
else null. -/
def line (v : Value) : Value :=
  let found := v.follow ["loc", "start", "line"]
  if found.int?.isSome then found else .null

/-- The property under a name that may be anything.  Only text names a property;
mappings tolerate whatever can be a key. -/
def propNamed (v : Value) (name : Entry) : Except Fault Value :=
  match name, v with
  | .data (.text s), v => .ok (v.prop s)
  | name, .object .mapping _ => name.checkKey.map fun _ => .null
  | name, _ => .error (.notAName name.kind)

/-- The value at the end of a chain of names that may be anything.  Names after a
null are not looked at. -/
def followNamed (v : Value) : List Entry → Except Fault Value
  | [] => .ok v
  | name :: rest => if v.isNull then .ok .null else do (← v.propNamed name).followNamed rest

/-- The nodes that a property holds: itself, or the nodes of a list, in order.  A
list within the list is not looked into.  The name of the property is the `n`-th
of those looked under. -/
def nodesAt (n : Nat) : Value → List (Slot × Value)
  | .list items =>
    (items.zipIdx.filter fun item => item.1.isNode).map fun item => (⟨n, item.2⟩, item.1)
  | v => if v.isNode then [(⟨n, 0⟩, v)] else []

/-- The child nodes under the given names, in visiting order, where `n` names were
looked under before. -/
def childrenFrom (v : Value) (n : Nat) : List Entry → Except Fault (List (Slot × Value))
  | [] => .ok []
  | name :: rest => do
    let found ← v.propNamed name
    let more ← childrenFrom v (n + 1) rest
    return found.nodesAt n ++ more

/-- The child nodes under the given names, in visiting order. -/
def children (v : Value) (names : List Entry) : Except Fault (List (Slot × Value)) :=
  v.childrenFrom 0 names

@[simp] theorem prop_null (name : Text) : Value.null.prop name = .null := rfl

theorem exists_fields_of_isNode {v : Value} (h : v.isNode = true) :
    ∃ style fields, v = .object style fields := by
  cases v with
  | object style fields => exact ⟨style, fields, rfl⟩
  | _ => simp [isNode, type?, prop, text?] at h

theorem isNode_of_isA {v : Value} {type : Text} (h : v.isA type = true) : v.isNode = true := by
  simp only [isA, beq_iff_eq] at h
  simp [isNode, h]

theorem sizeOf_of_lookup {name : Text} {v : Value} :
    ∀ {fields : List (Text × Value)}, fields.lookup name = some v → sizeOf v < sizeOf fields
  | (k, w) :: rest, h => by
    simp only [List.lookup_cons] at h
    split at h
    · cases h
      simp only [List.cons.sizeOf_spec, Prod.mk.sizeOf_spec]; omega
    · have := sizeOf_of_lookup h
      simp only [List.cons.sizeOf_spec]; omega

/-- A property of a node is smaller than the node. -/
theorem sizeOf_prop_lt {v : Value} (h : v.isNode = true) (name : Text) :
    sizeOf (v.prop name) < sizeOf v := by
  obtain ⟨style, fields, rfl⟩ := exists_fields_of_isNode h
  simp only [prop, object.sizeOf_spec]
  cases hl : fields.lookup name with
  | none =>
    have : 0 < sizeOf fields := by
      cases fields <;> simp only [List.nil.sizeOf_spec, List.cons.sizeOf_spec] <;> omega
    simp only [Option.getD_none, null.sizeOf_spec]; omega
  | some w =>
    have := sizeOf_of_lookup hl
    simp only [Option.getD_some]; omega

theorem mem_nodesAt_list {n : Nat} {items : List Value} {c : Slot × Value} :
    c ∈ nodesAt n (.list items) ↔ c.1.name = n ∧ items[c.1.index]? = some c.2 ∧ c.2.isNode := by
  obtain ⟨⟨name, index⟩, child⟩ := c
  simp only [nodesAt, List.mem_map, List.mem_filter, List.mem_zipIdx_iff_getElem?, Prod.exists,
    Prod.mk.injEq, Slot.mk.injEq]
  constructor
  · rintro ⟨v, i, ⟨hv, hn⟩, ⟨rfl, rfl⟩, rfl⟩
    exact ⟨rfl, hv, hn⟩
  · rintro ⟨rfl, hv, hn⟩
    exact ⟨child, index, ⟨hv, hn⟩, ⟨rfl, rfl⟩, rfl⟩

theorem sizeOf_le_of_mem_nodesAt {n : Nat} {v : Value} {c : Slot × Value} (h : c ∈ v.nodesAt n) :
    sizeOf c.2 ≤ sizeOf v := by
  cases v with
  | list items =>
    have := List.sizeOf_lt_of_mem (List.mem_of_getElem? (mem_nodesAt_list.mp h).2.1)
    simp only [list.sizeOf_spec]; omega
  | object style fields =>
    simp only [nodesAt] at h
    split at h
    · obtain rfl := List.mem_singleton.mp h
      exact Nat.le_refl _
    · cases h
  | _ => cases h

theorem nodesAt_propNamed_lt {n : Nat} {v found : Value} {c : Slot × Value} {name : Entry}
    (hv : v.isNode = true) (h : v.propNamed name = .ok found) (hc : c ∈ found.nodesAt n) :
    sizeOf c.2 < sizeOf v := by
  unfold propNamed at h
  split at h
  · cases h
    exact Nat.lt_of_le_of_lt (sizeOf_le_of_mem_nodesAt hc) (sizeOf_prop_lt hv _)
  · cases hk : name.checkKey with
    | ok _ => rw [hk] at h; cases h; cases hc
    | error fault => rw [hk] at h; cases h
  · cases h

/-- Children are found under all names or not at all. -/
theorem childrenFrom_cons_eq_ok {v : Value} {n : Nat} {name : Entry} {rest : List Entry}
    {cs : List (Slot × Value)} :
    v.childrenFrom n (name :: rest) = .ok cs ↔
      ∃ found more, v.propNamed name = .ok found ∧ v.childrenFrom (n + 1) rest = .ok more ∧
        cs = found.nodesAt n ++ more := by
  simp only [childrenFrom, bind, Except.bind]
  cases v.propNamed name with
  | error fault => simp
  | ok found =>
    cases v.childrenFrom (n + 1) rest with
    | error fault => simp
    | ok more => simp [pure, Except.pure, eq_comm]

/-- A child was found under one of the names. -/
theorem exists_of_mem_childrenFrom {v : Value} {c : Slot × Value} :
    ∀ {n : Nat} {names : List Entry} {cs : List (Slot × Value)},
      v.childrenFrom n names = .ok cs → c ∈ cs →
        ∃ m name found, v.propNamed name = .ok found ∧ c ∈ found.nodesAt m
  | _, [], cs, h, hc => by cases h; cases hc
  | n, name :: rest, cs, h, hc => by
    obtain ⟨found, more, hf, hr, rfl⟩ := childrenFrom_cons_eq_ok.mp h
    rcases List.mem_append.mp hc with hc | hc
    · exact ⟨n, name, found, hf, hc⟩
    · exact exists_of_mem_childrenFrom hr hc

/-- The children of a node are smaller than the node, so a tree can be walked to
its end. -/
theorem sizeOf_lt_of_mem_children {v : Value} {c : Slot × Value} {names : List Entry}
    {cs : List (Slot × Value)} (hv : v.isNode = true) (h : v.children names = .ok cs)
    (hc : c ∈ cs) : sizeOf c.2 < sizeOf v := by
  obtain ⟨m, name, found, hf, hm⟩ := exists_of_mem_childrenFrom h hc
  exact nodesAt_propNamed_lt hv hf hm

end Value

end Estree
