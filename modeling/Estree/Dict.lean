/-!
Tables that keep the order in which their names were first put.
-/

namespace Estree

namespace Entries

variable {κ β : Type} [DecidableEq κ]

/-- A name already there keeps its place and takes the new value. -/
def put (k : κ) (v : β) : List (κ × β) → List (κ × β)
  | [] => [(k, v)]
  | (j, w) :: rest => if j = k then (k, v) :: rest else (j, w) :: put k v rest

theorem keys_put (k : κ) (v : β) (l : List (κ × β)) :
    (put k v l).map Prod.fst =
      if k ∈ l.map Prod.fst then l.map Prod.fst else l.map Prod.fst ++ [k] := by
  induction l with
  | nil => simp [put]
  | cons e rest ih =>
    obtain ⟨j, w⟩ := e
    by_cases h : j = k
    · simp [put, h]
    · have h' : ¬ k = j := fun e => h e.symm
      simp only [put, h, if_false, List.map_cons, ih, List.mem_cons, h', false_or]
      split <;> rfl

theorem mem_put {k : κ} {v : β} {l : List (κ × β)} {e : κ × β} (h : e ∈ put k v l) :
    e = (k, v) ∨ e ∈ l := by
  induction l with
  | nil => exact .inl (List.mem_singleton.mp h)
  | cons f rest ih =>
    by_cases hf : f.1 = k
    · rw [put, if_pos hf] at h
      rcases List.mem_cons.mp h with rfl | h
      · exact .inl rfl
      · exact .inr (List.mem_cons_of_mem f h)
    · rw [put, if_neg hf] at h
      rcases List.mem_cons.mp h with rfl | h
      · exact .inr List.mem_cons_self
      · exact (ih h).imp_right (List.mem_cons_of_mem f)

theorem lookup_cons_ne {k x : κ} (h : x ≠ k) (v : β) (l : List (κ × β)) :
    ((k, v) :: l).lookup x = l.lookup x := by simp [List.lookup_cons, beq_false_of_ne h]

theorem lookup_put (k : κ) (v : β) (l : List (κ × β)) (x : κ) :
    (put k v l).lookup x = if x = k then some v else l.lookup x := by
  induction l with
  | nil =>
    by_cases h : x = k
    · subst h; simp [put]
    · simp [put, h, lookup_cons_ne h]
  | cons e rest ih =>
    obtain ⟨j, w⟩ := e
    by_cases h : j = k
    · subst h
      by_cases hx : x = j
      · subst hx; simp [put]
      · simp [put, hx, lookup_cons_ne hx]
    · by_cases hx : x = j
      · subst hx; simp [put, h]
      · simp [put, h, lookup_cons_ne hx, ih]

end Entries

/-- A table of values by name, each name once, in the order of first insertion. -/
structure Dict (κ β : Type) where
  entries : List (κ × β)
  nodup : (entries.map Prod.fst).Nodup

namespace Dict

variable {κ β : Type}

def empty : Dict κ β := ⟨[], List.nodup_nil⟩

instance : Inhabited (Dict κ β) := ⟨empty⟩

def keys (d : Dict κ β) : List κ := d.entries.map Prod.fst

def size (d : Dict κ β) : Nat := d.entries.length

@[ext] theorem ext {d e : Dict κ β} (h : d.entries = e.entries) : d = e := by
  cases d; cases e; cases h; rfl

variable [DecidableEq κ]

def get? (d : Dict κ β) (k : κ) : Option β := d.entries.lookup k

def contains (d : Dict κ β) (k : κ) : Bool := (d.get? k).isSome

def put (d : Dict κ β) (k : κ) (v : β) : Dict κ β where
  entries := Entries.put k v d.entries
  nodup := by
    rw [Entries.keys_put]
    split
    · exact d.nodup
    · rename_i h
      exact List.nodup_append.mpr ⟨d.nodup, by simp, fun a ha b hb => by
        rw [List.mem_singleton.mp hb]; exact fun e => h (e ▸ ha)⟩

/-- The entries put one after another, so that the last value of a name stands. -/
def putAll (d : Dict κ β) (es : List (κ × β)) : Dict κ β :=
  es.foldl (fun acc e => acc.put e.1 e.2) d

def ofList (es : List (κ × β)) : Dict κ β := empty.putAll es

@[simp] theorem get?_empty (k : κ) : (empty : Dict κ β).get? k = none := rfl

theorem get?_put (d : Dict κ β) (k x : κ) (v : β) :
    (d.put k v).get? x = if x = k then some v else d.get? x :=
  Entries.lookup_put k v d.entries x

theorem keys_put (d : Dict κ β) (k : κ) (v : β) :
    (d.put k v).keys = if k ∈ d.keys then d.keys else d.keys ++ [k] :=
  Entries.keys_put k v d.entries

theorem mem_putAll {d : Dict κ β} {es : List (κ × β)} {e : κ × β}
    (h : e ∈ (d.putAll es).entries) : e ∈ es ∨ e ∈ d.entries := by
  induction es generalizing d with
  | nil => exact .inr h
  | cons f rest ih =>
    rcases ih h with hrest | hput
    · exact .inl (List.mem_cons_of_mem f hrest)
    · rcases Entries.mem_put hput with rfl | hd
      · exact .inl List.mem_cons_self
      · exact .inr hd

/-- A table has no entries but those that it is made of. -/
theorem mem_ofList {es : List (κ × β)} {e : κ × β} (h : e ∈ (ofList es).entries) : e ∈ es :=
  (mem_putAll h).resolve_right List.not_mem_nil

end Dict

end Estree
