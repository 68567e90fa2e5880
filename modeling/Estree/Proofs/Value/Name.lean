import Estree.Node.Name
import Estree.Proofs.Value.Content

/-!
The nodes that the name of a node is put together from.

A chain of members has a name for each of its ends, and the other nodes between say
nothing.  So a name has no style if what its ends are called by has none, `name_content`.
-/

namespace Estree

namespace Value

/-- The ends of a chain of members, from left to right; a node that is no member is one
by itself. -/
def leaves (v : Value) : List Value :=
  if _h : v.isA "MemberExpression" then (v.prop "object").leaves ++ (v.prop "property").leaves
  else [v]
termination_by sizeOf v
decreasing_by
  all_goals exact sizeOf_prop_lt (isNode_of_isA _h) _

theorem leaves_of_member {v : Value} (h : v.isA "MemberExpression" = true) :
    v.leaves = (v.prop "object").leaves ++ (v.prop "property").leaves := by
  rw [leaves, dif_pos h]

theorem leaves_of_not_member {v : Value} (h : ¬v.isA "MemberExpression" = true) :
    v.leaves = [v] := by
  rw [leaves, dif_neg h]

theorem name_of_member {v : Value} (h : v.isA "MemberExpression" = true) (default : Value) :
    v.name default = .text (((v.prop "object").name default).plain ++ "." ++
      ((v.prop "property").name default).plain) := by
  rw [name, dif_pos h]

theorem name_of_not_member {v : Value} (h : ¬v.isA "MemberExpression" = true) (default : Value) :
    v.name default = v.leafName default := by
  rw [name, dif_neg h]

theorem everywhere_of_mem_leaves {p : Value → Bool} (hnull : p .null = true) {v : Value}
    (h : v.everywhere p = true) : ∀ leaf ∈ v.leaves, leaf.everywhere p = true := by
  induction v using leaves.induct with
  | case1 v hv object property =>
    rw [leaves_of_member hv]
    intro leaf hleaf
    rcases List.mem_append.mp hleaf with hl | hl
    · exact object (everywhere_prop hnull h _) leaf hl
    · exact property (everywhere_prop hnull h _) leaf hl
  | case2 v hv =>
    rw [leaves_of_not_member hv]
    intro leaf hleaf
    rw [List.mem_singleton.mp hleaf]
    exact h

theorem leaves_content (v : Value) : v.content.leaves = v.leaves.map content := by
  induction v using leaves.induct with
  | case1 v hv object property =>
    have hv' : v.content.isA "MemberExpression" = true := (isA_content v _).trans hv
    rw [leaves_of_member hv', leaves_of_member hv, prop_content, prop_content, object, property,
      List.map_append]
  | case2 v hv =>
    have hv' : ¬v.content.isA "MemberExpression" = true := by rwa [isA_content]
    rw [leaves_of_not_member hv', leaves_of_not_member hv, List.map_singleton]

/-- No object stands in what a node by itself is called by. -/
structure PlainlyCalled (v : Value) : Prop where
  name : (v.prop "name").objectFree = true
  literal : v.isA "Literal" = true → (v.prop "value").objectFree = true

theorem leafName_content {v : Value} (h : v.PlainlyCalled) (default : Value) :
    v.content.leafName default = v.leafName default := by
  have hname : (v.prop "name").content = v.prop "name" := content_of_objectFree h.name
  simp only [leafName, isA_content, prop_content, hname]
  by_cases hliteral : v.isA "Literal" = true
  · rw [content_of_objectFree (h.literal hliteral)]
  · simp only [if_neg hliteral]

theorem content_leafName {v : Value} (h : v.PlainlyCalled) {default : Value}
    (hdefault : default.content = default) :
    (v.leafName default).content = v.leafName default := by
  have hname : (v.prop "name").content = v.prop "name" := content_of_objectFree h.name
  unfold leafName
  split
  · split
    · exact hname
    · exact hdefault
  · split
    · split
      · rfl
      · exact hdefault
    · split
      · split
        · exact hdefault
        · rfl
      · split
        · rfl
        · exact hdefault

theorem name_content {v : Value} (h : ∀ leaf ∈ v.leaves, leaf.PlainlyCalled) (default : Value) :
    v.content.name default = v.name default := by
  induction v using leaves.induct with
  | case1 v hv object property =>
    have hv' : v.content.isA "MemberExpression" = true := (isA_content v _).trans hv
    rw [leaves_of_member hv] at h
    have hobject := object fun leaf hl => h leaf (List.mem_append_left _ hl)
    have hproperty := property fun leaf hl => h leaf (List.mem_append_right _ hl)
    rw [name_of_member hv', name_of_member hv, prop_content, prop_content, hobject, hproperty]
  | case2 v hv =>
    have hv' : ¬v.content.isA "MemberExpression" = true := by rwa [isA_content]
    rw [leaves_of_not_member hv] at h
    rw [name_of_not_member hv', name_of_not_member hv]
    exact leafName_content (h v List.mem_cons_self) default

theorem content_name {v : Value} (h : ∀ leaf ∈ v.leaves, leaf.PlainlyCalled) {default : Value}
    (hdefault : default.content = default) : (v.name default).content = v.name default := by
  by_cases hv : v.isA "MemberExpression" = true
  · rw [name_of_member hv]
    rfl
  · rw [leaves_of_not_member hv] at h
    rw [name_of_not_member hv]
    exact content_leafName (h v List.mem_cons_self) hdefault

end Value

end Estree
