import Estree.Key
import Mathlib.Data.Finset.Card
import Mathlib.Data.List.Nodup

/-!
Tables and the writes they come from.

A name is looked up as the last value put, `get?_putAll`, and stands where it was first
put, `keys_putAll`.  Two tables with the same names in order and the same values are one,
`ext_get?`, so writing rows again and again comes down to these two laws.
-/

namespace Estree

namespace Entries

variable {α κ β γ : Type} [DecidableEq α] [DecidableEq κ]

/-- Looking up goes on as before when names are renamed apart. -/
theorem lookup_map {f : α → κ} (hf : ∀ a b, f a = f b → a = b) (v : α → β → γ) (k : α)
    (l : List (α × β)) :
    (l.map fun e => (f e.1, v e.1 e.2)).lookup (f k) = (l.lookup k).map (v k) := by
  induction l with
  | nil => rfl
  | cons e rest ih =>
    obtain ⟨j, w⟩ := e
    by_cases h : k = j
    · subst h; simp
    · have hne : f k ≠ f j := fun he => h (hf k j he)
      rw [List.map_cons, lookup_cons_ne hne, lookup_cons_ne h, ih]

theorem mem_of_lookup {k : κ} {v : β} {l : List (κ × β)} (h : l.lookup k = some v) :
    (k, v) ∈ l := by
  obtain ⟨as, bs, rfl, -⟩ := List.lookup_eq_some_iff.mp h
  exact List.mem_append_right as List.mem_cons_self

theorem put_of_not_mem {k : κ} (v : β) {l : List (κ × β)} (h : k ∉ l.map Prod.fst) :
    put k v l = l ++ [(k, v)] := by
  induction l with
  | nil => rfl
  | cons e rest ih =>
    simp only [List.map_cons, List.mem_cons, not_or] at h
    rw [put, if_neg fun he => h.1 he.symm, ih h.2, List.cons_append]

theorem lookup_eq_none {k : κ} {l : List (κ × β)} : l.lookup k = none ↔ k ∉ l.map Prod.fst := by
  rw [List.lookup_eq_none_iff]
  constructor
  · intro h hk
    obtain ⟨e, he, rfl⟩ := List.mem_map.mp hk
    have hne := h e he
    simp at hne
  · intro h e he
    have hne : k ≠ e.1 := fun hk => h (List.mem_map.mpr ⟨e, he, hk.symm⟩)
    simpa using hne

/-- A name that stands with one value only is looked up as that value. -/
theorem lookup_eq_some {k : κ} {v : β} {l : List (κ × β)} (hm : (k, v) ∈ l)
    (h : ∀ w, (k, w) ∈ l → w = v) : l.lookup k = some v := by
  cases hl : l.lookup k with
  | none => exact absurd (List.mem_map_of_mem hm) (lookup_eq_none.mp hl)
  | some w => rw [h w (mem_of_lookup hl)]

theorem lookup_of_nodup {k : κ} {v : β} {l : List (κ × β)} (hl : (l.map Prod.fst).Nodup)
    (hm : (k, v) ∈ l) : l.lookup k = some v :=
  lookup_eq_some hm fun _ hw => (Prod.mk.inj (List.inj_on_of_nodup_map hl hw hm rfl)).2

/-- Where no name stands twice, the order of looking does not matter. -/
theorem lookup_reverse {l : List (κ × β)} (hl : (l.map Prod.fst).Nodup) (k : κ) :
    l.reverse.lookup k = l.lookup k := by
  cases h : l.lookup k with
  | none =>
    rw [lookup_eq_none] at h ⊢
    rwa [List.map_reverse, List.mem_reverse]
  | some v =>
    have hreverse : (l.reverse.map Prod.fst).Nodup := by
      rw [List.map_reverse]
      exact List.nodup_reverse.mpr hl
    exact lookup_of_nodup hreverse (List.mem_reverse.mpr (mem_of_lookup h))

theorem ext_lookup {l l' : List (κ × β)} (hl : (l.map Prod.fst).Nodup)
    (hkeys : l.map Prod.fst = l'.map Prod.fst) (h : ∀ k, l.lookup k = l'.lookup k) : l = l' := by
  induction l generalizing l' with
  | nil => exact (List.map_eq_nil_iff.mp hkeys.symm).symm
  | cons e l ih =>
    obtain ⟨e', l', rfl, hfst, hrest⟩ := List.map_eq_cons_iff.mp hkeys.symm
    obtain ⟨k, v⟩ := e
    obtain ⟨k', v'⟩ := e'
    obtain rfl : k' = k := hfst
    obtain ⟨hk, hnodup⟩ := List.nodup_cons.mp hl
    have hv : v = v' := by simpa using h k'
    have htail : l = l' := by
      refine ih hnodup hrest.symm fun x => ?_
      by_cases hx : x = k'
      · rw [hx, lookup_eq_none.mpr hk, lookup_eq_none.mpr (hrest ▸ hk)]
      · have hcons := h x
        rwa [lookup_cons_ne hx, lookup_cons_ne hx] at hcons
    rw [hv, htail]

/-! ### Names in order of their first appearance -/

theorem eraseDups_concat (l : List κ) (k : κ) :
    (l ++ [k]).eraseDups = if k ∈ l then l.eraseDups else l.eraseDups ++ [k] := by
  rw [List.eraseDups_append]
  by_cases h : k ∈ l
  · have hgone : [k].removeAll l = [] := by simp [List.removeAll, h]
    rw [hgone, if_pos h, List.eraseDups_nil, List.append_nil]
  · have hkept : [k].removeAll l = [k] := by simp [List.removeAll, h]
    rw [hkept, if_neg h]
    rfl

theorem eraseDups_of_nodup {l : List κ} (h : l.Nodup) : l.eraseDups = l := by
  induction l using List.reverseRecOn with
  | nil => rfl
  | append_singleton l k ih =>
    obtain ⟨hl, -, hk⟩ := List.nodup_append.mp h
    have hnew : k ∉ l := fun hmem => hk k hmem k List.mem_cons_self rfl
    rw [eraseDups_concat, if_neg hnew, ih hl]

/-- What is new in the second of two lists stands after the first. -/
theorem eraseDups_append_of_nodup {as bs : List κ} (has : as.Nodup) (hbs : bs.Nodup) :
    (as ++ bs).eraseDups = as ++ bs.filter (· ∉ as) := by
  have hnew : bs.removeAll as = bs.filter (· ∉ as) := by
    rw [List.removeAll]
    exact List.filter_congr fun k _ => by simp
  rw [List.eraseDups_append, eraseDups_of_nodup has, hnew, eraseDups_of_nodup (hbs.filter _)]

theorem eraseDups_append_eraseDups (as bs : List κ) :
    (as ++ bs.eraseDups).eraseDups = (as ++ bs).eraseDups := by
  induction bs using List.reverseRecOn with
  | nil => rfl
  | append_singleton bs k ih =>
    rw [eraseDups_concat, ← List.append_assoc, eraseDups_concat]
    by_cases h : k ∈ bs
    · rw [if_pos h, if_pos (List.mem_append_right as h), ih]
    · rw [if_neg h, ← List.append_assoc, eraseDups_concat, ih]
      simp only [List.mem_append, List.mem_eraseDups]

theorem eraseDups_eraseDups_append (as bs : List κ) :
    (as.eraseDups ++ bs).eraseDups = (as ++ bs).eraseDups := by
  induction bs using List.reverseRecOn with
  | nil =>
    rw [List.append_nil, List.append_nil]
    exact eraseDups_append_eraseDups [] as
  | append_singleton bs k ih =>
    rw [← List.append_assoc, eraseDups_concat, ← List.append_assoc, eraseDups_concat, ih]
    simp only [List.mem_append, List.mem_eraseDups]

theorem findSome?_congr {ι : Type} {l : List ι} {f g : ι → Option β} (h : ∀ a ∈ l, f a = g a) :
    l.findSome? f = l.findSome? g := by
  induction l with
  | nil => rfl
  | cons a l ih =>
    rw [List.findSome?_cons, List.findSome?_cons, h a List.mem_cons_self,
      ih fun b hb => h b (List.mem_cons_of_mem a hb)]

theorem keys_filterMap_sublist {ι : Type} (f : ι → β → Option γ) (l : List (ι × β)) :
    ((l.filterMap fun e => (f e.1 e.2).map (Prod.mk e.1)).map Prod.fst).Sublist
      (l.map Prod.fst) := by
  induction l with
  | nil => exact .slnil
  | cons e l ih =>
    rw [List.filterMap_cons]
    cases f e.1 e.2 with
    | none => exact ih.cons e.1
    | some v => exact ih.cons_cons e.1

/-- Values worked out again, and some left out. -/
theorem lookup_filterMap {l : List (κ × β)} (hl : (l.map Prod.fst).Nodup) (f : κ → β → Option γ)
    (k : κ) :
    (l.filterMap fun e => (f e.1 e.2).map (Prod.mk e.1)).lookup k = (l.lookup k).bind (f k) := by
  induction l with
  | nil => rfl
  | cons e l ih =>
    obtain ⟨j, v⟩ := e
    obtain ⟨hj, hnodup⟩ := List.nodup_cons.mp hl
    rw [List.filterMap_cons]
    by_cases h : k = j
    · subst h
      have hnone := ih hnodup
      rw [lookup_eq_none.mpr hj] at hnone
      cases hv : f k v <;> simp [hv, hnone]
    · rw [lookup_cons_ne h, ← ih hnodup]
      cases f j v with
      | none => rfl
      | some w => exact lookup_cons_ne h w _

end Entries

namespace Dict

variable {κ β γ : Type} [DecidableEq κ]

theorem get?_putAll (d : Dict κ β) (es : List (κ × β)) (k : κ) :
    (d.putAll es).get? k = (es.reverse.lookup k).or (d.get? k) := by
  induction es generalizing d with
  | nil => rfl
  | cons e es ih =>
    obtain ⟨j, w⟩ := e
    rw [putAll, List.foldl_cons, ← putAll, ih, get?_put, List.reverse_cons, List.lookup_append]
    by_cases h : k = j
    · subst h; simp
    · rw [if_neg h, Entries.lookup_cons_ne h, List.lookup_nil, Option.or_none]

/-- The last value of a key stands. -/
theorem get?_ofList (es : List (κ × β)) (k : κ) :
    (ofList es).get? k = es.reverse.lookup k := by
  rw [ofList, get?_putAll, get?_empty, Option.or_none]

theorem entries_put {d : Dict κ β} {k : κ} (v : β) (h : k ∉ d.keys) :
    (d.put k v).entries = d.entries ++ [(k, v)] := Entries.put_of_not_mem v h

theorem get?_isSome {d : Dict κ β} {k : κ} : (d.get? k).isSome ↔ k ∈ d.keys := by
  rw [Option.isSome_iff_ne_none, ne_eq, get?, Entries.lookup_eq_none, not_not, keys]

theorem entries_putAll {d : Dict κ β} {es : List (κ × β)}
    (h : (d.keys ++ es.map Prod.fst).Nodup) : (d.putAll es).entries = d.entries ++ es := by
  induction es generalizing d with
  | nil => simp [putAll]
  | cons e es ih =>
    obtain ⟨k, v⟩ := e
    have hk : k ∉ d.keys := fun hk =>
      (List.nodup_append.mp h).2.2 k hk k (by simp) rfl
    have hkeys : (d.put k v).keys = d.keys ++ [k] := by rw [keys_put, if_neg hk]
    have hrest : ((d.put k v).keys ++ es.map Prod.fst).Nodup := by
      rw [hkeys, List.append_assoc]
      exact h
    show ((d.put k v).putAll es).entries = _
    rw [ih hrest, entries_put v hk, List.append_assoc]
    rfl

theorem entries_ofList {es : List (κ × β)} (h : (es.map Prod.fst).Nodup) :
    (ofList es).entries = es := entries_putAll (d := empty) h

theorem ext_get? {d e : Dict κ β} (hkeys : d.keys = e.keys) (h : ∀ k, d.get? k = e.get? k) :
    d = e := ext (Entries.ext_lookup d.nodup hkeys h)

theorem putAll_append (d : Dict κ β) (as bs : List (κ × β)) :
    d.putAll (as ++ bs) = (d.putAll as).putAll bs := List.foldl_append

/-- The names stand in the order in which they were first put. -/
theorem keys_ofList (es : List (κ × β)) : (ofList es).keys = (es.map Prod.fst).eraseDups := by
  induction es using List.reverseRecOn with
  | nil => rfl
  | append_singleton es e ih =>
    obtain ⟨k, v⟩ := e
    rw [ofList, putAll_append, ← ofList, List.map_append, List.map_singleton,
      Entries.eraseDups_concat]
    show ((ofList es).put k v).keys = _
    rw [keys_put, ih]
    simp only [List.mem_eraseDups]

theorem ofList_entries (d : Dict κ β) : ofList d.entries = d := ext (entries_ofList d.nodup)

/-- Putting the entries of one table into another keeps the order of first appearance. -/
theorem keys_putAll (d : Dict κ β) (es : List (κ × β)) :
    (d.putAll es).keys = (d.keys ++ es.map Prod.fst).eraseDups := by
  have hlist : d.putAll es = ofList (d.entries ++ es) := by
    rw [ofList, putAll_append, ← ofList, ofList_entries]
  rw [hlist, keys_ofList, List.map_append, keys]

/-- Entries put one after another are as good as a table of them. -/
theorem putAll_ofList (d : Dict κ β) (es : List (κ × β)) :
    d.putAll (ofList es).entries = d.putAll es := by
  refine ext_get? ?_ fun k => ?_
  · have hkeys := keys_ofList es
    rw [keys] at hkeys
    rw [keys_putAll, keys_putAll, hkeys, Entries.eraseDups_append_eraseDups]
  · rw [get?_putAll, get?_putAll, Entries.lookup_reverse (ofList es).nodup, ← get?, get?_ofList]

/-- Names that are there already stay where they are. -/
theorem keys_putAll_of_subset {d : Dict κ β} {es : List (κ × β)}
    (h : es.map Prod.fst ⊆ d.keys) : (d.putAll es).keys = d.keys := by
  induction es generalizing d with
  | nil => rfl
  | cons e es ih =>
    obtain ⟨hk, hrest⟩ := List.cons_subset.mp h
    have hkeys : (d.put e.1 e.2).keys = d.keys := by rw [keys_put, if_pos hk]
    show ((d.put e.1 e.2).putAll es).keys = _
    rw [ih (hkeys ▸ hrest), hkeys]

/-- The first entry of a kind is the first name with a value of that kind. -/
theorem findSome?_entries (d : Dict κ β) (f : κ → β → Option γ) :
    d.entries.findSome? (fun e => f e.1 e.2) = d.keys.findSome? fun k => (d.get? k).bind (f k) := by
  rw [keys, List.findSome?_map]
  refine Entries.findSome?_congr fun e he => ?_
  have hget : d.get? e.1 = some e.2 := Entries.lookup_of_nodup d.nodup he
  show _ = (d.get? e.1).bind (f e.1)
  rw [hget]
  rfl

theorem mem_entries {d : Dict κ β} {k : κ} {v : β} : (k, v) ∈ d.entries ↔ d.get? k = some v :=
  ⟨Entries.lookup_of_nodup d.nodup, Entries.mem_of_lookup⟩

omit [DecidableEq κ] in
theorem nodup_entries (d : Dict κ β) : d.entries.Nodup := List.Nodup.of_map Prod.fst d.nodup

/-- Tables have the same entries in whatever order if they give the same values. -/
theorem perm_iff_get? {d e : Dict κ β} :
    d.entries.Perm e.entries ↔ ∀ k, d.get? k = e.get? k := by
  rw [List.perm_ext_iff_of_nodup d.nodup_entries e.nodup_entries, Prod.forall]
  simp only [mem_entries]
  exact forall_congr' fun k => Option.ext_iff.symm

theorem size_eq_card (d : Dict κ β) : d.size = d.keys.toFinset.card := by
  have hkeys : d.keys.Nodup := d.nodup
  rw [List.toFinset_card_of_nodup hkeys, keys, List.length_map, size]

end Dict

/-! ### Tables under keys of any kind -/

namespace Keyed

variable {β : Type}

/-- Rows written one after another. -/
def writeAll (d : Keyed β) (rows : List (Key × Value × β)) : Keyed β :=
  rows.foldl (fun d row => d.write row.1 row.2.1 row.2.2) d

/-- What a key is shown as. -/
def shown? (d : Keyed β) (key : Key) : Option Value := (d.get? key).map Prod.fst

theorem ext_read? {d e : Keyed β} (hkeys : Dict.keys d = Dict.keys e)
    (hshown : ∀ key, d.shown? key = e.shown? key) (hread : ∀ key, d.read? key = e.read? key) :
    d = e := by
  refine Dict.ext_get? hkeys fun key => ?_
  have hs := hshown key
  have hr := hread key
  unfold shown? at hs
  unfold read? at hr
  cases hd : Dict.get? d key <;> cases he : Dict.get? e key <;> simp_all [Prod.ext_iff]

theorem shown?_write (d : Keyed β) (key x : Key) (shown : Value) (v : β) :
    (d.write key shown v).shown? x =
      if x = key then some ((d.shown? key).getD shown) else d.shown? x := by
  simp only [shown?, write, Dict.get?_put]
  split <;> rfl

theorem keys_write (d : Keyed β) (key : Key) (shown : Value) (v : β) :
    Dict.keys (d.write key shown v) =
      if key ∈ Dict.keys d then Dict.keys d else Dict.keys d ++ [key] :=
  Dict.keys_put d key _

theorem writeAll_cons (d : Keyed β) (row : Key × Value × β) (rows : List (Key × Value × β)) :
    d.writeAll (row :: rows) = (d.write row.1 row.2.1 row.2.2).writeAll rows := rfl

theorem writeAll_append (d : Keyed β) (as bs : List (Key × Value × β)) :
    d.writeAll (as ++ bs) = (d.writeAll as).writeAll bs := List.foldl_append

theorem keys_writeAll (d : Keyed β) (rows : List (Key × Value × β)) :
    Dict.keys (d.writeAll rows) = (Dict.keys d ++ rows.map Prod.fst).eraseDups := by
  induction rows using List.reverseRecOn with
  | nil =>
    have h := Dict.keys_putAll d []
    exact h
  | append_singleton rows row ih =>
    rw [writeAll_append, List.map_append, List.map_singleton, ← List.append_assoc,
      Entries.eraseDups_concat]
    show Dict.keys ((d.writeAll rows).write row.1 row.2.1 row.2.2) = _
    rw [keys_write, ih]
    simp only [List.mem_eraseDups]

/-- The last value written is read. -/
theorem read?_writeAll (d : Keyed β) (rows : List (Key × Value × β)) (key : Key) :
    (d.writeAll rows).read? key = ((rows.reverse.lookup key).map Prod.snd).or (d.read? key) := by
  induction rows generalizing d with
  | nil => rfl
  | cons row rows ih =>
    obtain ⟨k, shown, v⟩ := row
    rw [writeAll_cons, ih, read?_write, List.reverse_cons, List.lookup_append]
    by_cases h : key = k
    · subst h
      cases rows.reverse.lookup key <;> simp
    · rw [if_neg h, Entries.lookup_cons_ne h, List.lookup_nil, Option.or_none]

/-- A key goes on to be shown as it was first written. -/
theorem shown?_writeAll (d : Keyed β) (rows : List (Key × Value × β)) (key : Key) :
    (d.writeAll rows).shown? key = (d.shown? key).or ((rows.lookup key).map Prod.fst) := by
  induction rows generalizing d with
  | nil => exact Option.or_none.symm
  | cons row rows ih =>
    obtain ⟨k, shown, v⟩ := row
    rw [writeAll_cons, ih, shown?_write]
    by_cases h : key = k
    · subst h
      cases d.shown? key <;> simp
    · rw [if_neg h, Entries.lookup_cons_ne h]

/-- Where no key stands twice, writing is putting. -/
theorem writeAll_empty {rows : List (Key × Value × β)} (h : (rows.map Prod.fst).Nodup) :
    writeAll .empty rows = Dict.ofList rows := by
  refine ext_read? ?_ (fun key => ?_) fun key => ?_
  · rw [keys_writeAll, Dict.keys_ofList]
    rfl
  · rw [shown?_writeAll, shown?, shown?, Dict.get?_ofList, Entries.lookup_reverse h]
    rfl
  · rw [read?_writeAll, read?, read?, Dict.get?_ofList]
    exact Option.or_none

/-- Rows written into a table are as good as the rows of a table of them. -/
theorem writeAll_entries (d : Keyed β) (rows : List (Key × Value × β)) :
    d.writeAll (writeAll .empty rows).entries = d.writeAll rows := by
  have hnodup := (writeAll .empty rows).nodup
  refine ext_read? ?_ (fun key => ?_) fun key => ?_
  · have hkeys := keys_writeAll .empty rows
    rw [keys_writeAll, keys_writeAll,
      ← Entries.eraseDups_append_eraseDups (Dict.keys d) (rows.map _)]
    exact congrArg (fun ks => (Dict.keys d ++ ks).eraseDups) hkeys
  · have hshown := shown?_writeAll .empty rows key
    rw [shown?_writeAll, shown?_writeAll]
    exact congrArg (d.shown? key).or hshown
  · have hread := read?_writeAll .empty rows key
    rw [read?_writeAll, read?_writeAll, Entries.lookup_reverse hnodup]
    show (read? (writeAll .empty rows) key).or _ = _
    rw [hread]
    exact congrArg (fun o => Option.or o (d.read? key)) Option.or_none

theorem pairs_shown (d : Keyed β) :
    d.pairs.map Prod.fst = (Dict.keys d).map fun key => (d.shown? key).getD .null := by
  rw [pairs, Dict.keys, List.map_map, List.map_map]
  refine List.map_congr_left fun e he => ?_
  have hget : Dict.get? d e.1 = some e.2 := Entries.lookup_of_nodup d.nodup he
  show e.2.1 = ((Dict.get? d e.1).map Prod.fst).getD .null
  rw [hget]
  rfl

end Keyed

end Estree
