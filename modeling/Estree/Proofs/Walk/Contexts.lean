import Estree.Proofs.Walk.Erasure

/-!
Trees with a hole.

A context is a tree of which one place is left open, some way below the root: a whole
property, or one item of a list.  If every node above the hole descends into it, a walk of
the tree reports of what is put there what it would report of it anywhere, between events
that come from the context: `exists_framing`.
-/

namespace Estree

/-- The slot so many items further on in the same list. -/
def Slot.later (n : Nat) (s : Slot) : Slot := { s with index := s.index + n }

namespace Value

/-- A value that is no list stands in a slot of its own. -/
def Single (v : Value) : Prop := ∀ items, v ≠ .list items

theorem single_of_isNode {v : Value} (h : v.isNode = true) : v.Single := by
  rintro items rfl
  cases h

theorem text?_of_isNode {v : Value} (h : v.isNode = true) : v.text? = none := by
  obtain ⟨style, fields, rfl⟩ := exists_fields_of_isNode h
  rfl

theorem nodesAt_list_append (n : Nat) (xs ys : List Value) :
    (Value.list (xs ++ ys)).nodesAt n = (Value.list xs).nodesAt n ++
      ((Value.list ys).nodesAt n).map fun c => (c.1.later xs.length, c.2) := by
  have hshift : ys.zipIdx xs.length = ys.zipIdx.map fun item => (item.1, item.2 + xs.length) := by
    rw [List.zipIdx_eq_map_add]
    exact List.map_congr_left fun item _ => by rw [Nat.add_comm]
  simp only [nodesAt, List.zipIdx_append, Nat.zero_add, hshift, List.filter_append,
    List.filter_map, List.map_append, List.map_map]
  rfl

/-- Names are looked under one after another. -/
theorem childrenFrom_append_eq_ok {v : Value} {n : Nat} {first second : List Entry}
    {cs : List (Slot × Value)} :
    v.childrenFrom n (first ++ second) = .ok cs ↔
      ∃ as bs, v.childrenFrom n first = .ok as ∧
        v.childrenFrom (n + first.length) second = .ok bs ∧ cs = as ++ bs := by
  induction first generalizing n cs with
  | nil => simp [childrenFrom, eq_comm]
  | cons name first ih =>
    simp only [List.cons_append, childrenFrom_cons_eq_ok, ih, List.length_cons]
    have hlength : n + 1 + first.length = n + (first.length + 1) := by omega
    rw [hlength]
    constructor
    · rintro ⟨found, more, hfound, ⟨as, bs, has, hbs, rfl⟩, rfl⟩
      exact ⟨_, bs, ⟨found, as, hfound, has, rfl⟩, hbs, (List.append_assoc _ _ _).symm⟩
    · rintro ⟨cs', bs, ⟨found, as, hfound, has, rfl⟩, hbs, rfl⟩
      exact ⟨found, _, hfound, ⟨as, bs, has, hbs, rfl⟩, List.append_assoc _ _ _⟩

end Value

namespace Walk

/-! ### Moving nodes -/

namespace Occurrence

/-- The occurrence in a tree that stands in a place of a larger one. -/
def under (place : Place) (o : Occurrence) : Occurrence := ⟨o.place ++ place, o.node⟩

/-- The occurrence at or below a place, for one at or below an item of a body. -/
def moved (place : Place) (o : Occurrence) : Occurrence := ⟨o.place.dropLast ++ place, o.node⟩

/-- The occurrence so many items further on in the body. -/
def later (n : Nat) (o : Occurrence) : Occurrence :=
  ⟨o.place.dropLast ++ (o.place.getLast?.map (Slot.later n)).toList, o.node⟩

theorem moved_under (place : Place) (s : Slot) (o : Occurrence) :
    (o.under [s]).moved place = o.under place := by
  simp [under, moved]

theorem later_under (n : Nat) (s : Slot) (o : Occurrence) :
    (o.under [s]).later n = o.under [s.later n] := by
  simp [under, later]

end Occurrence

def Event.map (f : Occurrence → Occurrence) (e : Event) : Event := ⟨e.signal, f e.occurrence⟩

def Report.map (f : Occurrence → Occurrence) (r : Report) : Report :=
  ⟨r.events.map (Event.map f), r.fault⟩

theorem Report.map_append (f : Occurrence → Occurrence) (a b : Report) :
    (a ++ b).map f = a.map f ++ b.map f := by
  cases ha : a.fault with
  | some fault =>
    have hfault : (a.map f).fault = some fault := ha
    rw [append_of_some ha, append_of_some hfault]
  | none =>
    have hfault : (a.map f).fault = none := ha
    rw [append_of_none ha, append_of_none hfault]
    simp only [Report.map, List.map_append]

theorem Report.map_map (f h : Occurrence → Occurrence) (r : Report) :
    (r.map f).map h = r.map fun o => h (f o) := by
  simp only [Report.map, List.map_map]
  rfl

variable {g : Grammar}

theorem describeAll_map {f : Occurrence → Occurrence} {os : List Occurrence}
    (h : ∀ o ∈ os, describe g (f o) = (describe g o).map f) :
    describeAll g (os.map f) = (describeAll g os).map f := by
  induction os with
  | nil => rfl
  | cons o os ih =>
    rw [List.map_cons, describeAll_cons, describeAll_cons, Report.map_append,
      h o List.mem_cons_self, ih fun o' ho => h o' (List.mem_cons_of_mem o ho)]

theorem map_entering (place : Place) (opens : Bool) (o : Occurrence) :
    (entering opens o).map (Event.map (Occurrence.under place)) =
      entering opens (o.under place) := by
  cases opens <;> rfl

theorem map_leaving (place : Place) (opens : Bool) (o : Occurrence) :
    (leaving opens o).map (Event.map (Occurrence.under place)) =
      leaving opens (o.under place) := by
  cases opens <;> rfl

/-- What is reported of a node does not depend on where it stands. -/
theorem describe_under (place : Place) (o : Occurrence) :
    describe g (o.under place) = (describe g o).map (Occurrence.under place) := by
  induction o using visit_induction g with
  | skip o rule =>
    rw [describe_skip rule, describe_skip (o := o.under place) rule]
    rfl
  | scopeFault o r fault rule scope =>
    rw [describe_scopeFault rule scope, describe_scopeFault (o := o.under place) rule scope]
    rfl
  | childFault o r opens fault rule scope found =>
    have hnone := Occurrence.children_eq_error.mp found
    have hfound : (o.under place).children r = .error fault :=
      Occurrence.children_eq_error.mpr hnone
    rw [describe_childFault rule scope found,
      describe_childFault (o := o.under place) rule scope hfound, ← map_entering]
    rfl
  | descend o r opens os rule scope found ih =>
    obtain ⟨cs, hcs, rfl⟩ := Occurrence.children_eq_ok.mp found
    have hfound : (o.under place).children r =
        .ok ((cs.map o.child).map (Occurrence.under place)) :=
      Occurrence.children_eq_ok.mpr ⟨cs, hcs, List.map_map⟩
    rw [describe_descend rule scope found,
      describe_descend (o := o.under place) rule scope hfound, describeAll_map ih,
      Report.map_append, Report.map_append, ← map_entering, ← map_leaving]
    rfl

theorem describe_at (place : Place) (v : Value) :
    describe g ⟨place, v⟩ = (describe g ⟨[], v⟩).map (Occurrence.under place) :=
  describe_under (g := g) place ⟨[], v⟩

theorem describe_of_not_isNode {v : Value} (h : v.isNode = false) (place : Place) :
    describe g ⟨place, v⟩ = .empty := by
  refine describe_skip (Option.eq_none_iff_forall_ne_some.mpr fun r rule => ?_)
  rw [isNode_of_ruleOf rule] at h
  cases h

/-! ### Holes -/

/-- A property with a hole: all of it, or one item of a list. -/
inductive Opening where
  | whole
  | item (before after : List Value)

def Opening.fill (v : Value) : Opening → Value
  | .whole => v
  | .item before after => .list (before ++ v :: after)

/-- What a slot holds, if that is a node. -/
def held (s : Slot) (v : Value) : List (Slot × Value) := if v.isNode then [(s, v)] else []

theorem nodesAt_singleton (n : Nat) (v : Value) :
    (Value.list [v]).nodesAt n = held ⟨n, 0⟩ v := by
  cases h : v.isNode <;> simp [Value.nodesAt, held, h]

theorem Opening.nodesAt_fill (opening : Opening) (n : Nat) :
    ∃ left s right, ∀ v : Value, v.Single →
      (opening.fill v).nodesAt n = left ++ (held s v ++ right) := by
  cases opening with
  | whole =>
    refine ⟨[], ⟨n, 0⟩, [], fun v hv => ?_⟩
    rw [List.nil_append, List.append_nil]
    cases v with
    | list items => exact absurd rfl (hv items)
    | _ => rfl
  | item before after =>
    let right := ((Value.list after).nodesAt n).map fun c => (c.1.later 1, c.2)
    refine ⟨(Value.list before).nodesAt n, ⟨n, before.length⟩,
      right.map fun c => (c.1.later before.length, c.2), fun v _ => ?_⟩
    have hitem : (held ⟨n, 0⟩ v).map (fun c => (c.1.later before.length, c.2)) =
        held ⟨n, before.length⟩ v := by
      cases h : v.isNode <;> simp [held, h, Slot.later]
    have hrest : (Value.list (v :: after)).nodesAt n = held ⟨n, 0⟩ v ++ right := by
      rw [← nodesAt_singleton]
      exact Value.nodesAt_list_append n [v] after
    rw [Opening.fill, Value.nodesAt_list_append, hrest, List.map_append, hitem]

/-- An object with a hole in one property.  That property is the first of its name, so
it is the one that is read. -/
structure Frame where
  style : Style
  before : List (Text × Value)
  name : Text
  opening : Opening
  after : List (Text × Value)
  unnamed : name ∉ before.map Prod.fst

namespace Frame

def fill (F : Frame) (v : Value) : Value :=
  .object F.style (F.before ++ (F.name, F.opening.fill v) :: F.after)

variable (F : Frame)

theorem prop_fill (v : Value) : (F.fill v).prop F.name = F.opening.fill v := by
  have hnone : F.before.lookup F.name = none := by
    rw [List.lookup_eq_none_iff]
    intro field hfield
    have hne : F.name ≠ field.1 := fun h => F.unnamed (h ▸ List.mem_map_of_mem hfield)
    simpa using hne
  simp [fill, Value.prop, List.lookup_append, hnone]

theorem prop_fill_of_ne {name : Text} (h : name ≠ F.name) (v w : Value) :
    (F.fill v).prop name = (F.fill w).prop name := by
  simp only [fill, Value.prop, List.lookup_append, Entries.lookup_cons_ne h]

variable {F}

/-- The type of an object stands beside the hole, if the object has a rule with something
in the hole that is no text. -/
theorem name_ne_type {v : Value} {r : Rule} (hv : v.text? = none)
    (rule : ruleOf g (F.fill v) = some r) : F.name ≠ "type" := by
  intro h
  have htext : ((F.fill v).prop "type").text? = none := by
    rw [← h, prop_fill]
    cases F.opening with
    | whole => exact hv
    | item before after => rfl
  have hnode := isNode_of_ruleOf rule
  rw [Value.isNode, Value.type?, htext] at hnode
  cases hnode

theorem prop_type_fill {v : Value} {r : Rule} (hv : v.text? = none)
    (rule : ruleOf g (F.fill v) = some r) (w : Value) :
    (F.fill w).prop "type" = (F.fill v).prop "type" :=
  F.prop_fill_of_ne (name_ne_type hv rule).symm w v

theorem ruleOf_fill {v : Value} {r : Rule} (hv : v.text? = none)
    (rule : ruleOf g (F.fill v) = some r) (w : Value) : ruleOf g (F.fill w) = some r := by
  rw [ruleOf, Value.type?, prop_type_fill hv rule]
  exact rule

theorem propNamed_fill {name : Entry} (h : name.text? ≠ some F.name) (v w : Value) :
    (F.fill v).propNamed name = (F.fill w).propNamed name := by
  cases ht : name.text? with
  | some s =>
    obtain rfl := Entry.eq_of_text? ht
    have hs : s ≠ F.name := fun hs => h (hs ▸ rfl)
    exact congrArg Except.ok (F.prop_fill_of_ne hs v w)
  | none => exact propNamed_of_not_text ht _ _ _

theorem childrenFrom_fill {names : List Entry} (h : ∀ name ∈ names, name.text? ≠ some F.name)
    (n : Nat) (v w : Value) :
    (F.fill v).childrenFrom n names = (F.fill w).childrenFrom n names := by
  induction names generalizing n with
  | nil => rfl
  | cons name rest ih =>
    rw [childrenFrom_cons, childrenFrom_cons, propNamed_fill (h name List.mem_cons_self) v w,
      ih fun name' hname => h name' (List.mem_cons_of_mem name hname)]

/-- An object that descends into its hole has the same children before and after what
is put there. -/
theorem exists_around {r : Rule} (hname : .data (.text F.name) ∈ r.children)
    (honce : r.childTexts.Nodup) :
    ∃ left s right, ∀ v : Value, v.Single → ∀ cs, r.childrenOf (F.fill v) = .ok cs →
      cs = left ++ (held s v ++ right) := by
  obtain ⟨first, second, hsplit⟩ := List.append_of_mem hname
  have hothers : F.name ∉ first.filterMap Entry.text? ++ second.filterMap Entry.text? := by
    have htext : (Entry.data (.text F.name)).text? = some F.name := rfl
    rw [Rule.childTexts, hsplit, List.filterMap_append, List.filterMap_cons_some htext] at honce
    exact (List.nodup_cons.mp (List.nodup_middle.mp honce)).1
  have hfirst : ∀ name ∈ first, name.text? ≠ some F.name := fun name hn h =>
    hothers (List.mem_append_left _ (List.mem_filterMap.mpr ⟨name, hn, h⟩))
  have hsecond : ∀ name ∈ second, name.text? ≠ some F.name := fun name hn h =>
    hothers (List.mem_append_right _ (List.mem_filterMap.mpr ⟨name, hn, h⟩))
  obtain ⟨left, s, right, hfill⟩ := F.opening.nodesAt_fill (0 + first.length)
  let firsts := ((F.fill .null).childrenFrom 0 first).toOption.getD []
  let seconds := ((F.fill .null).childrenFrom (0 + first.length + 1) second).toOption.getD []
  refine ⟨firsts ++ left, s, right ++ seconds, fun v hv cs hcs => ?_⟩
  rw [Rule.childrenOf, Value.children, hsplit] at hcs
  obtain ⟨as, rest, has, hrest, rfl⟩ := Value.childrenFrom_append_eq_ok.mp hcs
  obtain ⟨found, bs, hfound, hbs, rfl⟩ := Value.childrenFrom_cons_eq_ok.mp hrest
  cases (congrArg Except.ok (F.prop_fill v)).symm.trans hfound
  rw [childrenFrom_fill hfirst 0 v .null] at has
  rw [childrenFrom_fill hsecond _ v .null] at hbs
  have hfirsts : firsts = as := by simp only [firsts, has]; rfl
  have hseconds : seconds = bs := by simp only [seconds, hbs]; rfl
  rw [hfill v hv, hfirsts, hseconds]
  simp only [List.append_assoc]

/-- The object has a rule, which names the property with the hole. -/
def Walked (g : Grammar) (F : Frame) : Prop :=
  ∃ r, ruleOf g (F.fill .null) = some r ∧ .data (.text F.name) ∈ r.children

end Frame

/-- What is put in the innermost hole of objects, the outermost first. -/
def fill (frames : List Frame) (v : Value) : Value := frames.foldr Frame.fill v

theorem single_fill {frames : List Frame} {v : Value} (h : v.Single) : (fill frames v).Single := by
  cases frames with
  | nil => exact h
  | cons F frames => exact fun items => nofun

/-- A tree with a hole at or below an item of its body, or the body itself. -/
structure Context where
  root : Frame
  /-- The objects from the body down to the hole. -/
  frames : List Frame
  inBody : root.name = "body"

namespace Context

def fill (c : Context) (v : Value) : Value := c.root.fill (Walk.fill c.frames v)

/-- Every node above the hole descends into it. -/
def Walked (g : Grammar) (c : Context) : Prop := ∀ F ∈ c.frames, F.Walked g

end Context

/-! ### Every place is a hole -/

theorem exists_opening {found child : Value} {i : Nat} (h : found.nodeAt? i = some child) :
    child.isNode = true ∧ ∃ opening : Opening, opening.fill child = found := by
  unfold Value.nodeAt? at h
  split at h
  · obtain ⟨hitem, hnode⟩ := Option.filter_eq_some_iff.mp h
    obtain ⟨before, after, rfl⟩ := List.append_of_mem (List.mem_of_getElem? hitem)
    exact ⟨hnode, .item before after, rfl⟩
  · split at h
    · rename_i hnode
      cases h
      exact ⟨hnode.2, .whole, rfl⟩
    · cases h

/-- A value with a child is an object with that child in a hole under one of the names. -/
theorem exists_frame {v child : Value} {names : List Entry} {s : Slot}
    (h : v.childAt? names s = some child) :
    child.isNode = true ∧ ∃ F : Frame, .data (.text F.name) ∈ names ∧ F.fill child = v := by
  simp only [Value.childAt?, Option.bind_eq_bind, Option.bind_eq_some_iff] at h
  obtain ⟨name, hname, found, hfound, hchild⟩ := h
  have hsome : found ≠ .null := by
    rintro rfl
    simp [Value.nodeAt?, Value.isNode, Value.type?, Value.text?] at hchild
  obtain ⟨t, rfl, hprop⟩ : ∃ t, name = .data (.text t) ∧ v.prop t = found := by
    unfold Value.propNamed at hfound
    split at hfound
    · cases hfound
      exact ⟨_, rfl, rfl⟩
    · -- What is not text finds nothing.
      cases hkey : name.checkKey with
      | error fault => rw [hkey] at hfound; cases hfound
      | ok _ => rw [hkey] at hfound; cases hfound; exact absurd rfl hsome
    · cases hfound
  obtain ⟨style, fields, rfl, hlookup⟩ : ∃ style fields,
      v = .object style fields ∧ fields.lookup t = some found := by
    cases v with
    | object style fields =>
      refine ⟨style, fields, rfl, ?_⟩
      simp only [Value.prop] at hprop
      cases hl : fields.lookup t with
      | none => rw [hl] at hprop; exact absurd hprop.symm hsome
      | some w => rw [hl] at hprop; exact congrArg some hprop
    | _ => exact absurd hprop.symm hsome
  obtain ⟨before, after, rfl, hbefore⟩ := List.lookup_eq_some_iff.mp hlookup
  obtain ⟨hnode, opening, rfl⟩ := exists_opening hchild
  have hunnamed : t ∉ before.map Prod.fst := by
    intro ht
    obtain ⟨field, hfield, rfl⟩ := List.mem_map.mp ht
    simpa using hbefore field hfield
  exact ⟨hnode, ⟨style, before, t, opening, after, hunnamed⟩, List.mem_of_getElem? hname, rfl⟩

theorem exists_frames {v node : Value} {path : List Slot} (hpass : Passable g v path)
    (h : below? g v path = some node) :
    ∃ frames, (∀ F ∈ frames, Frame.Walked g F) ∧ fill frames node = v := by
  induction path generalizing v with
  | nil =>
    cases h
    exact ⟨[], List.forall_mem_nil _, rfl⟩
  | cons s path ih =>
    obtain ⟨w, hw, hrule⟩ := hpass [] List.nil_prefix
    cases hw
    obtain ⟨r, rule⟩ := Option.isSome_iff_exists.mp hrule
    obtain ⟨child, hchild, hrest⟩ := (passable_cons rule).mp hpass
    simp only [below?, lookup_of_ruleOf rule, hchild, Option.bind_some] at h
    obtain ⟨frames, hframes, hfill⟩ := ih hrest h
    obtain ⟨hnode, F, hname, rfl⟩ := exists_frame hchild
    have hwalked : F.Walked g :=
      ⟨r, Frame.ruleOf_fill (Value.text?_of_isNode hnode) rule .null, hname⟩
    exact ⟨F :: frames, List.forall_mem_cons.mpr ⟨hwalked, hframes⟩, congrArg F.fill hfill⟩

/-- Every node that is reached stands in the hole of a context. -/
theorem exists_context {tree node : Value} {path : List Slot} (hr : Reached g tree path)
    (h : node? g tree path = some node) : ∃ c : Context, c.Walked g ∧ c.fill node = tree := by
  obtain ⟨s, rest, child, rfl, hchild, hbelow⟩ := node?_eq_some.mp h
  obtain ⟨frames, hframes, rfl⟩ := exists_frames ((reached_cons hchild).mp hr) hbelow
  obtain ⟨-, F, hname, rfl⟩ := exists_frame hchild
  have hbody : F.name = "body" := by simpa using hname
  exact ⟨⟨F, frames, hbody⟩, hframes, rfl⟩

/-! ### What is reported around a hole -/

/-- Of a node above a hole only the place and the type, and any other node as it is. -/
def Occurrence.outline (hole : Place) (o : Occurrence) : Occurrence :=
  if o.place <:+ hole then ⟨o.place, .mapping [("type", o.node.prop "type")]⟩ else o

def outlines (hole : Place) (es : List Event) : List Event :=
  es.map (Event.map (Occurrence.outline hole))

theorem outlines_append (hole : Place) (as bs : List Event) :
    outlines hole (as ++ bs) = outlines hole as ++ outlines hole bs := List.map_append

/-- Events that stand between others, of which the outlines are known. -/
def Framed (hole : Place) (pre post whole part : List Event) : Prop :=
  ∃ before after, whole = before ++ (part ++ after) ∧
    outlines hole before = pre ∧ outlines hole after = post

theorem Framed.refl (hole : Place) (es : List Event) : Framed hole [] [] es es :=
  ⟨[], [], (List.append_nil es).symm, rfl, rfl⟩

/-- What stands between events that themselves stand between others. -/
theorem Framed.trans {hole : Place} {pre post pre' post' whole mid part : List Event}
    (h : Framed hole pre post whole mid) (h' : Framed hole pre' post' mid part) :
    Framed hole (pre ++ pre') (post' ++ post) whole part := by
  obtain ⟨as, bs, rfl, rfl, rfl⟩ := h
  obtain ⟨before, after, rfl, rfl, rfl⟩ := h'
  exact ⟨as ++ before, after ++ bs, by simp only [List.append_assoc],
    outlines_append hole as before,
    outlines_append hole after bs⟩

/-- Of the node itself only what stays of it in an outline counts. -/
theorem outline_entering {hole place : Place} (h : place <:+ hole) {v w : Value}
    (htype : v.prop "type" = w.prop "type") (opens : Bool) :
    outlines hole (entering opens ⟨place, v⟩) = outlines hole (entering opens ⟨place, w⟩) := by
  cases opens <;> simp [outlines, entering, Event.map, Occurrence.outline, h, htype]

theorem outline_leaving {hole place : Place} (h : place <:+ hole) {v w : Value}
    (htype : v.prop "type" = w.prop "type") (opens : Bool) :
    outlines hole (leaving opens ⟨place, v⟩) = outlines hole (leaving opens ⟨place, w⟩) := by
  cases opens <;> simp [outlines, leaving, Event.map, Occurrence.outline, h, htype]

def eventsOf (g : Grammar) (place : Place) (cs : List (Slot × Value)) : List Event :=
  cs.flatMap fun c => (describe g ⟨c.1 :: place, c.2⟩).events

theorem eventsOf_append (place : Place) (as bs : List (Slot × Value)) :
    eventsOf g place (as ++ bs) = eventsOf g place as ++ eventsOf g place bs :=
  List.flatMap_append

theorem eventsOf_held (place : Place) (s : Slot) (v : Value) :
    eventsOf g place (held s v) = (describe g ⟨s :: place, v⟩).events := by
  cases h : v.isNode with
  | true => simp [held, h, eventsOf]
  | false =>
    rw [describe_of_not_isNode h]
    simp [held, h, eventsOf, Report.empty]

/-- A node at which nothing fails is reported with the nodes below it in between. -/
theorem exists_children {o : Occurrence} {r : Rule} {opens : Bool} (rule : ruleOf g o.node = some r)
    (scope : r.opensScope o.node = .ok opens) (h : (describe g o).fault = none) :
    ∃ cs, r.childrenOf o.node = .ok cs ∧
      (∀ c ∈ cs, (describe g (o.child c)).fault = none) ∧
      (describe g o).events = entering opens o ++ (eventsOf g o.place cs ++ leaving opens o) := by
  induction o, h using complete_induction g with
  | skip o h rule' => cases rule.symm.trans rule'
  | descend o h r' opens' os rule' scope' found hd hos =>
    cases rule.symm.trans rule'
    cases scope.symm.trans scope'
    obtain ⟨cs, hcs, rfl⟩ := Occurrence.children_eq_ok.mp found
    refine ⟨cs, hcs, fun c hc => hos _ (List.mem_map_of_mem hc), ?_⟩
    rw [hd, List.flatMap_map, List.append_assoc]
    rfl

theorem fault_held {place : Place} {s : Slot} {v : Value}
    (h : ∀ c ∈ held s v, (describe g ⟨c.1 :: place, c.2⟩).fault = none) :
    (describe g ⟨s :: place, v⟩).fault = none := by
  cases hv : v.isNode with
  | true => exact h (s, v) (by simp [held, hv])
  | false =>
    rw [describe_of_not_isNode hv]
    rfl

/-- A node that descends into a hole is reported with what is put there in between. -/
theorem exists_framing_step (hg : NoScopeComputed g)
    (honce : ∀ type r, g.rule? type = some r → r.childTexts.Nodup) {F : Frame} (hF : F.Walked g)
    (place : Place) :
    ∃ (s : Slot) (pre post : List Event), ∀ v : Value, v.Single →
      (describe g ⟨place, F.fill v⟩).fault = none →
        (describe g ⟨s :: place, v⟩).fault = none ∧
          ∀ hole, s :: place <:+ hole → Framed hole (outlines hole pre) (outlines hole post)
            (describe g ⟨place, F.fill v⟩).events (describe g ⟨s :: place, v⟩).events := by
  obtain ⟨r, rule, hname⟩ := hF
  obtain ⟨type, -, htype⟩ := Option.bind_eq_some_iff.mp rule
  obtain ⟨left, s, right, haround⟩ := F.exists_around hname (honce type r htype)
  let opens := r.newScope.shown.truthy
  refine ⟨s, entering opens ⟨place, F.fill .null⟩ ++ eventsOf g place left,
    eventsOf g place right ++ leaving opens ⟨place, F.fill .null⟩, fun v hv h => ?_⟩
  have scope : r.opensScope (F.fill v) = .ok opens := opensScope_of_noScopeComputed hg rule _
  obtain ⟨cs, hcs, hfaults, hevents⟩ :=
    exists_children (o := ⟨place, F.fill v⟩) (Frame.ruleOf_fill rfl rule v) scope h
  obtain rfl := haround v hv cs hcs
  refine ⟨fault_held fun c hc =>
    hfaults c (List.mem_append_right _ (List.mem_append_left _ hc)), fun hole hhole => ?_⟩
  have hplace : place <:+ hole := (List.suffix_cons s place).trans hhole
  have htypes := Frame.prop_type_fill rfl rule v
  refine ⟨entering opens ⟨place, F.fill v⟩ ++ eventsOf g place left,
    eventsOf g place right ++ leaving opens ⟨place, F.fill v⟩, ?_, ?_, ?_⟩
  · rw [hevents, eventsOf_append, eventsOf_append, eventsOf_held]
    simp only [List.append_assoc]
  · rw [outlines_append, outlines_append, outline_entering hplace htypes]
  · rw [outlines_append, outlines_append, outline_leaving hplace htypes]

/-- What is put in a hole is reported between events that come from the objects around
it. -/
theorem exists_framing (hg : NoScopeComputed g)
    (honce : ∀ type r, g.rule? type = some r → r.childTexts.Nodup) {frames : List Frame}
    (hframes : ∀ F ∈ frames, F.Walked g) (place : Place) :
    ∃ hole pre post, place <:+ hole ∧
      ∀ v : Value, v.Single → (describe g ⟨place, fill frames v⟩).fault = none →
        (describe g ⟨hole, v⟩).fault = none ∧
          Framed hole pre post (describe g ⟨place, fill frames v⟩).events
            (describe g ⟨hole, v⟩).events := by
  induction frames generalizing place with
  | nil => exact ⟨place, [], [], List.suffix_rfl, fun v _ h => ⟨h, .refl _ _⟩⟩
  | cons F frames ih =>
    obtain ⟨s, pre, post, houter⟩ :=
      exists_framing_step hg honce (hframes F List.mem_cons_self) place
    obtain ⟨hole, pre', post', hhole, hinner⟩ :=
      ih (fun F' hF => hframes F' (List.mem_cons_of_mem F hF)) (s :: place)
    refine ⟨hole, outlines hole pre ++ pre', post' ++ outlines hole post,
      (List.suffix_cons s place).trans hhole, fun v hv h => ?_⟩
    obtain ⟨hnext, hstep⟩ := houter (fill frames v) (single_fill hv) h
    obtain ⟨hfault, hframed⟩ := hinner v hv hnext
    exact ⟨hfault, (hstep hole hhole).trans hframed⟩

/-- What is put in the hole of a tree is reported between events that come from the
context. -/
theorem Context.exists_framing (hg : NoScopeComputed g)
    (honce : ∀ type r, g.rule? type = some r → r.childTexts.Nodup) {c : Context}
    (hc : c.Walked g) :
    ∃ hole pre post, ∀ v : Value, v.Single → (describeTree g (c.fill v)).fault = none →
      (describe g ⟨hole, v⟩).fault = none ∧
        Framed hole pre post (describeTree g (c.fill v)).events (describe g ⟨hole, v⟩).events := by
  obtain ⟨left, s, right, hbody⟩ := c.root.opening.nodesAt_fill 0
  obtain ⟨hole, pre, post, -, hinner⟩ := Walk.exists_framing hg honce hc [s]
  refine ⟨hole, outlines hole (eventsOf g [] left) ++ pre,
    post ++ outlines hole (eventsOf g [] right), fun v hv h => ?_⟩
  have hroots : roots (c.fill v) =
      (left ++ (held s (Walk.fill c.frames v) ++ right)).map fun d => ⟨[d.1], d.2⟩ := by
    rw [roots, ← hbody _ (single_fill hv), ← c.root.prop_fill, c.inBody]
    rfl
  have hfaults := describeTree_fault_eq_none.mp h
  rw [hroots, List.forall_mem_map] at hfaults
  have hnext : (describe g ⟨[s], Walk.fill c.frames v⟩).fault = none := fault_held fun d hd =>
    hfaults d (List.mem_append_right _ (List.mem_append_left _ hd))
  obtain ⟨hfault, hframed⟩ := hinner v hv hnext
  refine ⟨hfault, Framed.trans ⟨eventsOf g [] left, eventsOf g [] right, ?_, rfl, rfl⟩ hframed⟩
  rw [events_describeTree h, hroots, List.flatMap_map, ← eventsOf_held,
    ← eventsOf_append, ← eventsOf_append]
  rfl

/-! ### Bodies -/

/-- A program with a body. -/
def program (body : List Value) : Value :=
  .mapping [("type", .text "Program"), ("body", .list body)]

theorem roots_program_append (xs ys : List Value) :
    roots (program (xs ++ ys)) =
      roots (program xs) ++ (roots (program ys)).map (Occurrence.later xs.length) := by
  have hbody : ∀ body, roots (program body) =
      ((Value.list body).nodesAt 0).map (Occurrence.child ⟨[], .null⟩) := fun _ => rfl
  simp only [hbody, Value.nodesAt_list_append, List.map_append, List.map_map]
  rfl

theorem describeTree_program_append (xs ys : List Value) :
    describeTree g (program (xs ++ ys)) =
      describeTree g (program xs) ++
        (describeTree g (program ys)).map (Occurrence.later xs.length) := by
  simp only [describeTree_eq]
  rw [roots_program_append, describeAll_append]
  congr 1
  refine describeAll_map fun o ho => ?_
  obtain ⟨d, -, rfl⟩ := List.mem_map.mp ho
  show describe g ⟨[d.1.later xs.length], d.2⟩ = (describe g ⟨[d.1], d.2⟩).map _
  rw [describe_at, describe_at [d.1], Report.map_map]
  congr 1
  exact funext fun o => (Occurrence.later_under xs.length d.1 o).symm

theorem describeTree_program_singleton (v : Value) :
    describeTree g (program [v]) = describe g ⟨[⟨0, 0⟩], v⟩ := by
  have hroots : roots (program [v]) = (held ⟨0, 0⟩ v).map (Occurrence.child ⟨[], .null⟩) := by
    show ((Value.list [v]).nodesAt 0).map _ = _
    rw [nodesAt_singleton]
    rfl
  rw [describeTree_eq, hroots]
  cases h : v.isNode with
  | true =>
    simp only [held, h, if_true, List.map_cons, List.map_nil, describeAll_cons, describeAll_nil]
    exact Report.append_empty _
  | false =>
    rw [describe_of_not_isNode h]
    simp only [held, h, Bool.false_eq_true, if_false, List.map_nil, describeAll_nil]

/-- No rule of the standard grammar names a child twice. -/
theorem nodup_childTexts_standard {type : Text} {r : Rule}
    (h : Grammar.standard.rule? type = some r) : r.childTexts.Nodup := by
  obtain ⟨e, fields, hrow, rfl⟩ := Grammar.rule?_standard_eq_some.mp h
  have htable : ∀ row ∈ e.table, (Rule.ofFields row.2).childTexts.Nodup := by
    cases e <;> decide
  exact htable (type, fields) hrow

end Walk

end Estree
