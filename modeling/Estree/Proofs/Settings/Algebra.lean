import Estree.Proofs.Dict
import Estree.Proofs.Sorting
import Estree.Settings.Construction

/-!
Settings made from others, and settings compared.

A copy with other flags is the table with those flags put into it, `copyWith_eq`, so copies
of copies come down to the laws of tables.  Settings are the same if the entries of one are
those of the other rearranged, `same_iff_perm`, and sorting by name picks one arrangement,
`eq_sorted`.  Main statement: `copied_and_compared`.
-/

namespace Estree

namespace Settings

/-! ### Flags as arguments -/

theorem Call.arguments_texts (call : Call) (flags : List (Text × Value)) :
    call.arguments (flags.map fun e => (.text e.1, e.2)) =
      if (call.ownName : Text) ∈ flags.map Prod.fst then .error (.taken call) else .ok flags := by
  have htexts : ∀ f : Value × Value → Option (Text × Value),
      (∀ e : Text × Value, f (.text e.1, e.2) = some e) →
      (flags.map fun e => (Value.text e.1, e.2)).mapM f = some flags := by
    intro f hf
    induction flags with
    | nil => rfl
    | cons e flags ih =>
      rw [List.map_cons, List.mapM_cons, hf, ih]
      rfl
  have hown : (flags.any fun e => e.1 == call.ownName) = true ↔
      (call.ownName : Text) ∈ flags.map Prod.fst := by
    rw [List.any_eq_true, List.mem_map]
    simp
  rw [Call.arguments, htexts]
  · exact if_congr hown rfl rfl
  · exact fun _ => rfl

/-! ### Settings as tables of values -/

/-- Flags as names and values. -/
def valuesOf (flags : List (Text × FlagValue)) : List (Text × Value) :=
  flags.map fun e => (e.1, e.2.toValue)

theorem names_valuesOf (flags : List (Text × FlagValue)) :
    (valuesOf flags).map Prod.fst = flags.map Prod.fst := by
  rw [valuesOf, List.map_map]
  rfl

theorem lookup_valuesOf (flags : List (Text × FlagValue)) (name : Text) :
    (valuesOf flags).lookup name = (flags.lookup name).map FlagValue.toValue :=
  Entries.lookup_map (f := id) (fun _ _ h => h) (fun _ => FlagValue.toValue) name flags

theorem flagsOf_valuesOf (flags : List (Text × FlagValue)) :
    flagsOf ((valuesOf flags).map fun e => (.text e.1, e.2)) = .ok flags := by
  induction flags with
  | nil => rfl
  | cons e flags ih =>
    obtain ⟨name, flag⟩ := e
    have hflag : flagOf (.text name) flag.toValue = .ok (name, flag) := by cases flag <;> rfl
    rw [valuesOf, List.map_cons, ← valuesOf, List.map_cons, flagsOf, hflag, ih]
    rfl

theorem entries_toTable (s : Settings) : s.toTable.entries = valuesOf s.flags.entries := by
  refine Dict.entries_ofList ?_
  rw [← valuesOf, names_valuesOf]
  exact s.flags.nodup

theorem keys_toTable (s : Settings) : s.toTable.keys = s.flags.keys := by
  rw [Dict.keys, entries_toTable, names_valuesOf, Dict.keys]

theorem get?_toTable (s : Settings) (name : Text) :
    s.toTable.get? name = (s.flags.get? name).map FlagValue.toValue := by
  rw [Dict.get?, entries_toTable, lookup_valuesOf, Dict.get?]

theorem ofTable_toTable (s : Settings) : ofTable s.toTable = .ok s := by
  have hflags := flagsOf_valuesOf s.flags.entries
  rw [ofTable, entries_toTable]
  show (flagsOf ((valuesOf s.flags.entries).map _) >>= _) = _
  rw [hflags]
  exact congrArg (fun flags => Except.ok (Settings.mk flags)) (Dict.ofList_entries s.flags)

/-! ### Copies -/

/-- The flags of a table put into settings. -/
theorem toTable_putAll (s : Settings) (flags : List (Text × FlagValue)) :
    s.toTable.putAll (valuesOf flags) = toTable ⟨s.flags.putAll flags⟩ := by
  refine Dict.ext_get? ?_ fun name => ?_
  · rw [Dict.keys_putAll, keys_toTable, keys_toTable, names_valuesOf, Dict.keys_putAll]
  · rw [Dict.get?_putAll, get?_toTable, get?_toTable, Dict.get?_putAll, valuesOf,
      ← List.map_reverse, ← valuesOf, lookup_valuesOf, Option.map_or]

theorem copyWith_eq (s : Settings) {flags : Dict Text FlagValue}
    (h : (Call.copy.ownName : Text) ∉ flags.keys) :
    s.copyWith flags = .ok ⟨s.flags.putAll flags.entries⟩ := by
  have hown : (Call.copy.ownName : Text) ∉ (valuesOf flags.entries).map Prod.fst := by
    rwa [names_valuesOf]
  have hcopy : s.withFlags (valuesOf flags.entries) = .ok ⟨s.flags.putAll flags.entries⟩ := by
    rw [withFlags, toTable_putAll, ofTable_toTable]
  have hnamed : (flags.entries.map fun e => (Value.text e.1, e.2.toValue)) =
      (valuesOf flags.entries).map fun e => (.text e.1, e.2) := by
    rw [valuesOf, List.map_map]
    rfl
  rw [copyWith, hnamed, copied, Call.arguments_texts, if_neg hown]
  show (s.withFlags (valuesOf flags.entries)).mapError _ = _
  rw [hcopy]
  rfl

theorem copyWith_copyWith (s : Settings) {a b : Dict Text FlagValue}
    (ha : (Call.copy.ownName : Text) ∉ a.keys) (hb : (Call.copy.ownName : Text) ∉ b.keys) :
    (s.copyWith a >>= fun t => t.copyWith b) = s.copyWith (a.putAll b.entries) := by
  have hkeys : (Call.copy.ownName : Text) ∉ (a.putAll b.entries).keys := by
    rw [Dict.keys_putAll, List.mem_eraseDups, List.mem_append]
    exact not_or.mpr ⟨ha, hb⟩
  have hmerged : a.putAll b.entries = .ofList (a.entries ++ b.entries) := by
    rw [Dict.ofList, Dict.putAll_append, ← Dict.ofList, Dict.ofList_entries]
  rw [copyWith_eq s ha, copyWith_eq s hkeys, hmerged, Dict.putAll_ofList, Dict.putAll_append]
  exact copyWith_eq _ hb

/-! ### Settings compared -/

section Compare

variable {s t : Settings}

theorem same_iff_perm : s.same t = true ↔ s.flags.entries.Perm t.flags.entries := by
  have hall : (s.flags.entries.all fun e => t.get? e.1 == some e.2) = true ↔
      s.flags.entries ⊆ t.flags.entries := by
    rw [List.all_eq_true]
    exact forall₂_congr fun e _ => by rw [beq_iff_eq, Settings.get?, ← Dict.mem_entries]
  show (s.flags.entries.length == t.flags.entries.length && _) = true ↔ _
  rw [Bool.and_eq_true, beq_iff_eq, hall]
  constructor
  · rintro ⟨hlength, hsub⟩
    exact (s.flags.nodup_entries.subperm hsub).perm_of_length_le hlength.ge
  · intro h
    exact ⟨h.length_eq, h.subset⟩

theorem perm_sorted (s : Settings) : s.sorted.Perm s.flags.entries := List.mergeSort_perm _ _

theorem pairwise_sorted (s : Settings) : s.sorted.Pairwise fun a b => ¬b.1 < a.1 := by
  have hsorted : s.sorted.Pairwise fun a b => (!decide (b.1 < a.1)) = true := by
    refine List.pairwise_mergeSort (fun a b c hab hbc => ?_) (fun a b => ?_) _
    · simp only [Bool.not_eq_true', decide_eq_false_iff_not] at hab hbc ⊢
      exact Text.not_lt_trans hab hbc
    · simp only [Bool.or_eq_true, Bool.not_eq_true', decide_eq_false_iff_not]
      exact or_not_of_imp fun h => Text.not_lt_of_lt h
  exact hsorted.imp fun h => by simpa using h

/-- There is one way to put flags in the order of their names, for no two have one name. -/
theorem eq_sorted {flags : List (Text × FlagValue)} (hperm : flags.Perm s.flags.entries)
    (hsorted : flags.Pairwise fun a b => ¬b.1 < a.1) : flags = s.sorted := by
  refine (hperm.trans s.perm_sorted.symm).eq_of_pairwise (fun a b ha hb hab hba => ?_) hsorted
    s.pairwise_sorted
  have hname : a.1 = b.1 := by
    by_contra hne
    exact hba (Text.lt_of_not_lt hab hne)
  exact List.inj_on_of_nodup_map s.flags.nodup (hperm.subset ha) (s.perm_sorted.subset hb) hname

theorem sorted_eq_iff_perm : s.sorted = t.sorted ↔ s.flags.entries.Perm t.flags.entries := by
  constructor
  · intro h
    exact s.perm_sorted.symm.trans (h ▸ t.perm_sorted)
  · intro h
    exact eq_sorted (s.perm_sorted.trans h) s.pairwise_sorted

/-- Flags are compared by their names.  Under one name their values would have to be
compared, which need not have an order. -/
def byItem (a b : Text × FlagValue) : Except (FlagValue × FlagValue) Bool :=
  if a.1 = b.1 then .error (a.2, b.2) else .ok (decide (a.1 < b.1))

/-- Flags compared by nothing but their names. -/
def byName (a b : Text × FlagValue) : Except (FlagValue × FlagValue) Bool :=
  .ok (decide (a.1 < b.1))

theorem decides_byName :
    Sorting.Decides byName (fun _ => True) fun a b : Text × FlagValue => ¬b.1 < a.1 where
  trans := Text.not_lt_trans
  answer {a b} _ _ := by
    by_cases h : a.1 < b.1
    · exact .inl ⟨congrArg Except.ok (decide_eq_true h), Text.not_lt_of_lt h⟩
    · exact .inr ⟨congrArg Except.ok (decide_eq_false h), h⟩

/-- Sorting flags never compares two values. -/
theorem sort_byItem (s : Settings) : Sorting.sort byItem s.flags.entries = .ok s.sorted := by
  have hnames : s.flags.entries.Pairwise fun a b => a.1 ≠ b.1 := List.pairwise_map.mp s.flags.nodup
  have halike : s.flags.entries.Pairwise (Sorting.Alike byItem byName) :=
    hnames.imp fun hne => ⟨if_neg hne, if_neg hne.symm⟩
  obtain ⟨flags, hsort, hperm, hsorted⟩ : ∃ flags,
      Sorting.sort byName s.flags.entries = .ok flags ∧ flags.Perm s.flags.entries ∧
        flags.Pairwise fun a b => ¬b.1 < a.1 :=
    Sorting.exists_sort decides_byName fun _ _ => trivial
  rw [Sorting.sort_congr halike, hsort, eq_sorted hperm hsorted]

end Compare

/-! ### Settings of any values -/

/-- A name and a value that make a flag. -/
def IsFlag (name value : Value) : Prop :=
  (∃ key, name = .text key) ∧ ∃ flag, value = FlagValue.toValue flag

/-- What is wrong with a name and a value that make no flag. -/
def complaint : Value → Text
  | .text _ => "flag values must be booleans or strings"
  | _ => "flag names must be strings"

theorem flagOf_of_isFlag {name value : Value} (h : IsFlag name value) :
    ∃ flag, flagOf name value = .ok flag := by
  obtain ⟨⟨key, rfl⟩, flag, rfl⟩ := h
  exact ⟨(key, flag), by cases flag <;> rfl⟩

theorem flagOf_of_not_isFlag {name value : Value} (h : ¬IsFlag name value) :
    flagOf name value = .error (.invalidFlag name value (.text (complaint name))) := by
  cases name with
  | text key =>
    cases value with
    | bool b => exact absurd ⟨⟨key, rfl⟩, .switch b, rfl⟩ h
    | text word => exact absurd ⟨⟨key, rfl⟩, .word word, rfl⟩ h
    | _ => rfl
  | _ => cases value <;> rfl

theorem flagsOf_cons {name value : Value} (h : IsFlag name value) (rest : List (Value × Value)) :
    ∃ flag, flagsOf ((name, value) :: rest) = (flagsOf rest).map (List.cons flag) := by
  obtain ⟨flag, hflag⟩ := flagOf_of_isFlag h
  refine ⟨flag, ?_⟩
  rw [flagsOf, hflag]
  cases flagsOf rest <;> rfl

/-- The first pair that makes no flag is what is wrong with a list. -/
theorem flagsOf_eq_error_iff {pairs : List (Value × Value)} {f : Failure} :
    flagsOf pairs = .error f ↔ ∃ before name value after,
      pairs = before ++ (name, value) :: after ∧ (∀ e ∈ before, IsFlag e.1 e.2) ∧
        ¬IsFlag name value ∧ f = .invalidFlag name value (.text (complaint name)) := by
  induction pairs with
  | nil => simp [flagsOf]
  | cons e pairs ih =>
    obtain ⟨name, value⟩ := e
    by_cases h : IsFlag name value
    · obtain ⟨flag, hcons⟩ := flagsOf_cons h pairs
      have hrest : flagsOf ((name, value) :: pairs) = .error f ↔ flagsOf pairs = .error f := by
        rw [hcons]
        cases flagsOf pairs <;> simp [Except.map]
      rw [hrest, ih]
      constructor
      · rintro ⟨before, name', value', after, rfl, hbefore, hbad⟩
        exact ⟨(name, value) :: before, name', value', after, rfl,
          List.forall_mem_cons.mpr ⟨h, hbefore⟩, hbad⟩
      · rintro ⟨before, name', value', after, hpairs, hbefore, hbad, rfl⟩
        cases before with
        | nil =>
          cases hpairs
          exact absurd h hbad
        | cons e before =>
          cases hpairs
          exact ⟨before, name', value', after, rfl, (List.forall_mem_cons.mp hbefore).2, hbad, rfl⟩
    · have hbad : flagsOf ((name, value) :: pairs) =
          .error (.invalidFlag name value (.text (complaint name))) := by
        rw [flagsOf, flagOf_of_not_isFlag h]
        rfl
      rw [hbad, Except.error.injEq]
      constructor
      · rintro rfl
        exact ⟨[], name, value, pairs, rfl, List.forall_mem_nil _, h, rfl⟩
      · rintro ⟨before, name', value', after, hpairs, hbefore, -, rfl⟩
        cases before with
        | nil =>
          cases hpairs
          rfl
        | cons e before =>
          cases hpairs
          exact absurd (List.forall_mem_cons.mp hbefore).1 h

theorem ofEntries_eq_error_iff {entries : Keyed Value} {f : Failure} :
    ofEntries entries = .error f ↔ ∃ before name value after,
      entries.pairs = before ++ (name, value) :: after ∧ (∀ e ∈ before, IsFlag e.1 e.2) ∧
        ¬IsFlag name value ∧ f = .invalidFlag name value (.text (complaint name)) := by
  rw [← flagsOf_eq_error_iff, ofEntries]
  cases flagsOf entries.pairs <;> simp [bind, Except.bind, pure, Except.pure]

/-- What ends the making of settings: the first entry that makes no flag, as far as it can be
written. -/
theorem make_eq_error_iff {entries : Keyed Value} {stop : Stop} :
    make entries = .error stop ↔ ∃ before name value after,
      entries.pairs = before ++ (name, value) :: after ∧ (∀ e ∈ before, IsFlag e.1 e.2) ∧
        ¬IsFlag name value ∧
        stop = (match (name.limit? Limit.mostLevels).or (value.limit? Limit.mostLevels) with
          | some l => .limit l
          | none => .failure (.invalidFlag name value (.text (complaint name)))) := by
  have hwords : ∀ name value reason, Stop.ofFailure (.invalidFlag name value reason) =
      (match (name.limit? Limit.mostLevels).or (value.limit? Limit.mostLevels) with
        | some l => .limit l
        | none => .failure (.invalidFlag name value reason)) := by
    intro name value reason
    rw [Stop.ofFailure, Failure.limit?]
    cases (name.limit? Limit.mostLevels).or (value.limit? Limit.mostLevels) <;> rfl
  simp only [make, Logged.mapError_eq_error, ofEntries_eq_error_iff]
  constructor
  · rintro ⟨f, ⟨before, name, value, after, hpairs, hbefore, hbad, rfl⟩, rfl⟩
    exact ⟨before, name, value, after, hpairs, hbefore, hbad, hwords name value _⟩
  · rintro ⟨before, name, value, after, hpairs, hbefore, hbad, rfl⟩
    exact ⟨_, ⟨before, name, value, after, hpairs, hbefore, hbad, rfl⟩, hwords name value _⟩

/-- A copy has the flags that it is given, and the others as they were; new names stand after
the old ones, in their order.  Copies made one after another are one copy with the flags put
together, and a copy with nothing is the same.  Settings are the same if they give the same
flags, whatever their order, and that shows in their flags in order of their names: so their
digests are the same, and putting them in order compares no two values.  A table makes
settings unless one of its entries makes no flag, and the first such one is named; if its
name or its value cannot be written, that limit is met. -/
theorem copied_and_compared (s t : Settings) :
    (∀ a : Dict Text FlagValue, (Call.copy.ownName : Text) ∉ a.keys →
      ∃ u, s.copyWith a = .ok u ∧
        (∀ name, u.get? name = (a.get? name).or (s.get? name)) ∧
        u.flags.keys = s.flags.keys ++ a.keys.filter (· ∉ s.flags.keys)) ∧
    (∀ a b : Dict Text FlagValue, (Call.copy.ownName : Text) ∉ a.keys →
      (Call.copy.ownName : Text) ∉ b.keys →
      (s.copyWith a >>= fun u => u.copyWith b) = s.copyWith (a.putAll b.entries)) ∧
    s.copyWith .empty = .ok s ∧
    (s.same t = true ↔ ∀ name, s.get? name = t.get? name) ∧
    (s.same t = true ↔ s.sorted = t.sorted) ∧
    (s.same t = true → s.digest = t.digest) ∧
    Sorting.sort byItem s.flags.entries = .ok s.sorted ∧
    (∀ (entries : Keyed Value) (f : Failure), ofEntries entries = .error f ↔
      ∃ before name value after, entries.pairs = before ++ (name, value) :: after ∧
        (∀ e ∈ before, IsFlag e.1 e.2) ∧ ¬IsFlag name value ∧
        f = .invalidFlag name value (.text (complaint name))) ∧
    ∀ (entries : Keyed Value) (stop : Stop), make entries = .error stop ↔
      ∃ before name value after, entries.pairs = before ++ (name, value) :: after ∧
        (∀ e ∈ before, IsFlag e.1 e.2) ∧ ¬IsFlag name value ∧
        stop = (match (name.limit? Limit.mostLevels).or (value.limit? Limit.mostLevels) with
          | some l => .limit l
          | none => .failure (.invalidFlag name value (.text (complaint name)))) := by
  refine ⟨fun a ha => ⟨_, copyWith_eq s ha, fun name => ?_, ?_⟩,
    fun a b ha hb => copyWith_copyWith s ha hb, copyWith_eq s List.not_mem_nil, ?_, ?_,
    fun h => ?_, sort_byItem s, fun entries f => ofEntries_eq_error_iff,
    fun entries stop => make_eq_error_iff⟩
  · have hlast := Entries.lookup_reverse a.nodup name
    rw [Settings.get?, Dict.get?_putAll, hlast]
    rfl
  · have hkeys := Dict.keys_putAll s.flags a.entries
    rw [hkeys]
    exact Entries.eraseDups_append_of_nodup s.flags.nodup a.nodup
  · rw [same_iff_perm, Dict.perm_iff_get?]
    rfl
  · rw [same_iff_perm, sorted_eq_iff_perm]
  · rw [digest, digest, sorted_eq_iff_perm.mpr (same_iff_perm.mp h)]

/-- The defaults with `forof` on and a flag that they do not have. -/
theorem copied_with_target :
    ∃ u, default.copyWith (.ofList [("forof", .switch true), ("target", .word "es5")]) = .ok u ∧
      u.get? "forof" = some (.switch true) ∧ u.get? "switchcase" = some (.switch true) ∧
      u.flags.keys = default.flags.keys ++ [("target" : Text)] := by
  obtain ⟨hcopy, -⟩ := copied_and_compared default default
  obtain ⟨u, hu, hflags, hnames⟩ :=
    hcopy (.ofList [("forof", .switch true), ("target", .word "es5")]) (by decide)
  exact ⟨u, hu, hflags "forof", hflags "switchcase", hnames⟩

end Settings

end Estree
