import Estree.Proofs.Value.Name

/-!
What a chain of members is called.

The dots of its name stand between its ends, so how the members are put together does not
show: the name of two parts is their names with a dot between, and putting dots between is
associative.  Main statement: `name_flattens`.
-/

namespace Estree

namespace Text

@[simp] theorem intercalate_singleton (separator part : Text) :
    intercalate separator [part] = part := by
  rw [intercalate, List.map_singleton, List.intercalate_singleton]

theorem intercalate_cons {separator part : Text} {parts : List Text} (h : parts ≠ []) :
    intercalate separator (part :: parts) = part ++ separator ++ intercalate separator parts := by
  have hletters : parts.map letters ≠ [] := by rwa [ne_eq, List.map_eq_nil_iff]
  rw [intercalate, List.map_cons, List.intercalate_cons_of_ne_nil hletters]
  rfl

theorem append_assoc (s t u : Text) : s ++ t ++ u = s ++ (t ++ u) :=
  ext (List.append_assoc s.letters t.letters u.letters)

theorem intercalate_append {separator : Text} {parts more : List Text} (h : parts ≠ [])
    (hmore : more ≠ []) :
    intercalate separator (parts ++ more) =
      intercalate separator parts ++ separator ++ intercalate separator more := by
  induction parts with
  | nil => exact absurd rfl h
  | cons part parts ih =>
    cases parts with
    | nil => rw [List.singleton_append, intercalate_cons hmore, intercalate_singleton]
    | cons next parts =>
      have hrest : next :: parts ≠ [] := List.cons_ne_nil next parts
      have hall : next :: parts ++ more ≠ [] := List.append_ne_nil_of_left_ne_nil hrest more
      rw [List.cons_append, intercalate_cons hall, ih hrest, intercalate_cons hrest]
      simp only [append_assoc]

end Text

namespace Value

theorem leaves_ne_nil (v : Value) : v.leaves ≠ [] := by
  induction v using leaves.induct with
  | case1 v hv object property =>
    rw [leaves_of_member hv]
    exact List.append_ne_nil_of_left_ne_nil object _
  | case2 v hv =>
    rw [leaves_of_not_member hv]
    exact List.cons_ne_nil v []

/-- No end of a chain is a member expression. -/
theorem not_member_of_mem_leaves {v : Value} :
    ∀ leaf ∈ v.leaves, ¬leaf.isA "MemberExpression" = true := by
  induction v using leaves.induct with
  | case1 v hv object property =>
    intro leaf hleaf
    rw [leaves_of_member hv] at hleaf
    rcases List.mem_append.mp hleaf with hl | hl
    · exact object leaf hl
    · exact property leaf hl
  | case2 v hv =>
    intro leaf hleaf
    rw [leaves_of_not_member hv] at hleaf
    rwa [List.mem_singleton.mp hleaf]

/-- What the ends of a chain are called, each by itself. -/
def leafTexts (v default : Value) : List Text := v.leaves.map fun leaf => (leaf.name default).plain

theorem leafTexts_ne_nil (v default : Value) : v.leafTexts default ≠ [] := by
  rw [leafTexts, ne_eq, List.map_eq_nil_iff]
  exact v.leaves_ne_nil

theorem leafTexts_of_member {v : Value} (h : v.isA "MemberExpression" = true) (default : Value) :
    v.leafTexts default =
      (v.prop "object").leafTexts default ++ (v.prop "property").leafTexts default := by
  rw [leafTexts, leaves_of_member h, List.map_append]
  rfl

theorem plain_name (v default : Value) :
    (v.name default).plain = Text.intercalate "." (v.leafTexts default) := by
  induction v using leaves.induct with
  | case1 v hv object property =>
    have hobject := leafTexts_ne_nil (v.prop "object") default
    have hproperty := leafTexts_ne_nil (v.prop "property") default
    rw [name_of_member hv, plain_text, object, property, leafTexts_of_member hv,
      Text.intercalate_append hobject hproperty]
  | case2 v hv =>
    rw [leafTexts, leaves_of_not_member hv, List.map_singleton, Text.intercalate_singleton]

theorem name_eq_text_plain {v : Value} (h : v.isA "MemberExpression" = true) (default : Value) :
    v.name default = .text (v.name default).plain := by
  rw [name_of_member h]
  rfl

/-- Every node has a name.  That of a member expression is what its ends are called, from
left to right, with dots between; the ends are those of its object and then those of its
property, down to nodes that are no member expressions and stand for themselves.  So member
expressions with ends that are called alike have one name. -/
theorem name_flattens (v default : Value) :
    (v.isA "MemberExpression" = true →
      v.name default = .text (Text.intercalate "." (v.leafTexts default)) ∧
      v.leaves = (v.prop "object").leaves ++ (v.prop "property").leaves) ∧
    (¬v.isA "MemberExpression" = true → v.leaves = [v]) ∧
    (∀ leaf ∈ v.leaves, ¬leaf.isA "MemberExpression" = true ∧
      leaf.name default = leaf.leafName default) ∧
    ∀ w : Value, v.isA "MemberExpression" = true → w.isA "MemberExpression" = true →
      v.leafTexts default = w.leafTexts default → v.name default = w.name default := by
  refine ⟨fun hv => ⟨?_, leaves_of_member hv⟩, leaves_of_not_member, fun leaf hleaf => ?_,
    fun w hv hw htexts => ?_⟩
  · rw [name_eq_text_plain hv, plain_name]
  · have hnot := not_member_of_mem_leaves leaf hleaf
    exact ⟨hnot, name_of_not_member hnot default⟩
  · rw [name_eq_text_plain hv, name_eq_text_plain hw, plain_name, plain_name, htexts]

def identifier (name : Text) : Value :=
  .mapping [("type", .text "Identifier"), ("name", .text name)]

def memberOf (object property : Value) : Value :=
  .mapping [("type", .text "MemberExpression"), ("object", object), ("property", property)]

theorem leaves_memberOf (object property : Value) :
    (memberOf object property).leaves = object.leaves ++ property.leaves :=
  leaves_of_member rfl

/-- Three identifiers with the first two or the last two put together. -/
theorem brackets_unseen :
    (memberOf (memberOf (identifier "a") (identifier "b")) (identifier "c")).name .null =
      (memberOf (identifier "a") (memberOf (identifier "b") (identifier "c"))).name .null := by
  obtain ⟨-, -, -, hsame⟩ :=
    name_flattens (memberOf (memberOf (identifier "a") (identifier "b")) (identifier "c")) .null
  refine hsame _ rfl rfl ?_
  simp only [leafTexts, leaves_memberOf, List.append_assoc]

end Value

end Estree
