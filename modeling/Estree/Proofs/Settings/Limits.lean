import Estree.Proofs.Settings.Sources
import Estree.Proofs.Value.Content

/-!
What ends the loading of settings: a failure, or a limit that is met.

Limits come up where a settings file is looked for under a path that is too long, and
where a value that no flag can have is too much to be put into words.
-/

namespace Estree

namespace Value

theorem limitOfList?_eq (levels : Nat) (items : List Value) :
    limitOfList? levels items = items.findSome? (limit? levels) := by
  induction items with
  | nil => rfl
  | cons v rest ih =>
    rw [limitOfList?, ih, List.findSome?_cons]
    cases limit? levels v <;> rfl

theorem limitOfFields?_eq (levels : Nat) (fields : List (Text × Value)) :
    limitOfFields? levels fields = fields.findSome? fun e => limit? levels e.2 := by
  induction fields with
  | nil => rfl
  | cons e rest ih =>
    obtain ⟨name, v⟩ := e
    rw [limitOfFields?, ih, List.findSome?_cons]
    cases limit? levels v <;> rfl

/-- A value that cannot be written holds a number that is too large, or is too deep. -/
theorem limit?_eq_some {v : Value} :
    ∀ {levels : Nat} {l : Limit}, v.limit? levels = some l → l = .largeNumber ∨ l = .deepValue := by
  induction v using nested_induction with
  | scalar v hscalar =>
    intro levels l h
    cases levels with
    | zero =>
      rw [limit?] at h
      exact .inr (Option.some.inj h).symm
    | succ levels =>
      cases v with
      | int i =>
        rw [limit?] at h
        split at h
        · exact .inl (Option.some.inj h).symm
        · cases h
      | list items => cases hscalar
      | object style fields => cases hscalar
      | _ => simp [limit?] at h
  | list items ih =>
    intro levels l h
    cases levels with
    | zero =>
      rw [limit?] at h
      exact .inr (Option.some.inj h).symm
    | succ levels =>
      rw [limit?, limitOfList?_eq] at h
      obtain ⟨v, hv, hl⟩ := List.exists_of_findSome?_eq_some h
      exact ih v hv hl
  | object style fields ih =>
    intro levels l h
    cases levels with
    | zero =>
      rw [limit?] at h
      exact .inr (Option.some.inj h).symm
    | succ levels =>
      cases style with
      | attributes kind said => cases h
      | mapping =>
        rw [limit?, limitOfFields?_eq] at h
        obtain ⟨e, he, hl⟩ := List.exists_of_findSome?_eq_some h
        exact ih e he hl

end Value

namespace Settings

/-- What stands at a place, which goes under a path, cannot be looked for. -/
inductive Hidden (files : Files) (place path : Text) : Limit → Prop
  | long (h : files place = .tooLong) : Hidden files place path (.longPath path)
  | denied (h : files place = .denied) : Hidden files place path (.deniedPath path)

/-- A limit that the loading of settings can meet. -/
inductive Meets (src : Sources) (config : Option Text) (overrides : List (Text × Value)) :
    Limit → Prop
  /-- The project file cannot be looked for. -/
  | project (l : Limit) (h : Hidden src.files projectFile (projectPath src) l) :
      Meets src config overrides l
  /-- The file that is asked for cannot be looked for. -/
  | asked (path : Text) (l : Limit) (hpath : config = some path)
      (h : Hidden src.files path path l) : Meets src config overrides l
  /-- A value that no flag can have cannot be written. -/
  | value (g : Given) (name : Text) (v : Value) (l : Limit)
      (hgiven : given src config overrides = .ok g) (hfinal : g.final? name = some v)
      (hunfit : FlagValue.ofValue? v = none) (hlimit : v.limit? Limit.mostLevels = some l)
      (hl : l = .largeNumber ∨ l = .deepValue) : Meets src config overrides l

theorem Hidden.of_isThere {files : Files} {place path : Text} {l : Limit}
    (h : files.isThere place = .error l) : Hidden files place path (l.named path) := by
  unfold Files.isThere at h
  cases hfound : files place with
  | tooLong =>
    rw [hfound] at h
    cases h
    exact .long hfound
  | denied =>
    rw [hfound] at h
    cases h
    exact .denied hfound
  | _ =>
    rw [hfound] at h
    cases h

theorem valuesAt_eq_error {files : Files} {place path : Text}
    {missing : Except Stop (List (Text × Value))} {stop : Stop}
    (h : valuesAt files place path missing = .error stop) :
    (∃ f, stop = .failure f) ∨ (∃ l, stop = .limit l ∧ Hidden files place path l) ∨
      missing = .error stop := by
  rcases Logged.bind_eq_error.mp h with hthere | ⟨there, -, hvalues⟩
  · obtain ⟨l, hl, rfl⟩ := Logged.mapError_eq_error.mp hthere
    exact .inr (.inl ⟨l.named path, rfl, .of_isThere hl⟩)
  · cases there with
    | true =>
      obtain ⟨f, -, rfl⟩ := Logged.mapError_eq_error.mp hvalues
      exact .inl ⟨f, rfl⟩
    | false => exact .inr (.inr hvalues)

section Loading

variable {src : Sources} {config : Option Text} {overrides : List (Text × Value)} {stop : Stop}

theorem given_eq_error (h : given src config overrides = .error stop) :
    (∃ f, stop = .failure f) ∨ ∃ l, stop = .limit l ∧ Meets src config overrides l := by
  unfold given at h
  cases hproject : projectValues src with
  | error stop' =>
    rw [hproject] at h
    cases h
    rcases valuesAt_eq_error hproject with hfailure | ⟨l, rfl, hhidden⟩ | hmissing
    · exact .inl hfailure
    · exact .inr ⟨l, rfl, .project l hhidden⟩
    · cases hmissing
  | ok project =>
    rw [hproject] at h
    cases hasked : askedValues src config with
    | ok asked =>
      rw [hasked] at h
      cases h
    | error stop' =>
      rw [hasked] at h
      cases h
      cases config with
      | none => cases hasked
      | some path =>
        rcases valuesAt_eq_error hasked with hfailure | ⟨l, rfl, hhidden⟩ | hmissing
        · exact .inl hfailure
        · exact .inr ⟨l, rfl, .asked path l rfl hhidden⟩
        · cases hmissing
          exact .inl ⟨_, rfl⟩

/-- A value that is no flag is reported, unless it cannot be written. -/
theorem ofFailure_unfit {name : Text} {v : Value} {f : Failure} (h : unfit? name v = some f) :
    FlagValue.ofValue? v = none ∧
      Stop.ofFailure f = ((v.limit? Limit.mostLevels).map Stop.limit).getD (.failure f) := by
  unfold unfit? at h
  split at h
  · cases h
  · rename_i hnone
    cases h
    refine ⟨hnone, ?_⟩
    rw [Stop.ofFailure, Failure.limit?]
    rfl

theorem Given.stop?_eq_some {g : Given} (hgiven : given src config overrides = .ok g)
    (h : g.stop? = some stop) :
    (∃ f, stop = .failure f) ∨ ∃ l, stop = .limit l ∧ Meets src config overrides l := by
  rcases Option.or_eq_some_iff.mp h with hmisspelt | ⟨-, hunfit⟩
  · obtain ⟨f, -, rfl⟩ := Option.map_eq_some_iff.mp hmisspelt
    exact .inl ⟨f, rfl⟩
  · obtain ⟨f, hf, rfl⟩ := Option.map_eq_some_iff.mp hunfit
    obtain ⟨name, -, hname⟩ := List.exists_of_findSome?_eq_some hf
    obtain ⟨v, hfinal, hbad⟩ := Option.bind_eq_some_iff.mp hname
    obtain ⟨hnone, hstop⟩ := ofFailure_unfit hbad
    rw [hstop]
    cases hlimit : v.limit? Limit.mostLevels with
    | none => exact .inl ⟨f, rfl⟩
    | some l =>
      exact .inr ⟨l, rfl, .value g name v l hgiven hfinal hnone hlimit
        (Value.limit?_eq_some hlimit)⟩

/-- Loading ends with a failure or at a limit that it meets. -/
theorem load_eq_error (h : (load src config overrides).collect.1 = .error stop) :
    (∃ f, stop = .failure f) ∨ ∃ l, stop = .limit l ∧ Meets src config overrides l := by
  rw [collect_load] at h
  cases hgiven : given src config overrides with
  | error stop' =>
    rw [hgiven] at h
    cases h
    exact given_eq_error hgiven
  | ok g =>
    rw [hgiven] at h
    have hsettings := g.settings_eq
    cases hstop : g.stop? with
    | none =>
      rw [hstop] at hsettings
      obtain ⟨s, hs, -⟩ := hsettings
      cases hs.symm.trans h
    | some stop' =>
      rw [hstop] at hsettings
      cases hsettings.symm.trans h
      exact g.stop?_eq_some hgiven hstop

end Loading

end Settings

end Estree
