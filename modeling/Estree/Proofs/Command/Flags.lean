import Estree.Proofs.Command
import Estree.Proofs.Settings.Layers
import Mathlib.Data.List.Forall2
import Mathlib.Data.List.TakeWhile

/-!
The flags of a command.

An option spells a name and a value, or it has no name, and the first that has none ends
the command before any file is read.  Of several options with one name the last counts.
The words for switches are read the same in an option and in a variable; what is no such
word stands as text in the one and is refused in the other.  Main statement:
`flags_resolved`.
-/

namespace Estree

namespace Text

/-- A word of small letters, written in letters of any case. -/
def InAnyCase (s : Text) (word : String) : Prop :=
  List.Forall₂ (fun l k => l = .char k ∨ l = .char k.toUpper) s.letters word.toList

theorem toNat_toLower (c : Char) :
    c.toLower.toNat = if 65 ≤ c.toNat ∧ c.toNat ≤ 90 then c.toNat + 32 else c.toNat := by
  have hrange : c.val ≥ 'A'.val ∧ c.val ≤ 'Z'.val ↔ 65 ≤ c.toNat ∧ c.toNat ≤ 90 := by
    rw [ge_iff_le, UInt32.le_iff_toNat_le, UInt32.le_iff_toNat_le]
    rfl
  by_cases h : c.val ≥ 'A'.val ∧ c.val ≤ 'Z'.val
  · have hc := hrange.mp h
    have hval : c.toLower.val = c.val + ('a'.val - 'A'.val) := by
      delta Char.toLower
      rw [dif_pos h]
    have hsum : c.toLower.toNat = (c.toNat + 32) % 2 ^ 32 := by
      rw [Char.toNat, hval, UInt32.toNat_add]
      rfl
    rw [if_pos hc, hsum]
    omega
  · have hsame : c.toLower = c := dif_neg h
    rw [if_neg (mt hrange.mpr h), hsame]

/-- The offset is negative, so the sum wraps around. -/
theorem toNat_toUpper (c : Char) :
    c.toUpper.toNat = if 97 ≤ c.toNat ∧ c.toNat ≤ 122 then c.toNat - 32 else c.toNat := by
  have hrange : 'a'.val ≤ c.val ∧ c.val ≤ 'z'.val ↔ 97 ≤ c.toNat ∧ c.toNat ≤ 122 := by
    rw [UInt32.le_iff_toNat_le, UInt32.le_iff_toNat_le]
    rfl
  by_cases h : 'a'.val ≤ c.val ∧ c.val ≤ 'z'.val
  · have hc := hrange.mp h
    have hval : c.toUpper.val = c.val + ('A'.val - 'a'.val) := by
      delta Char.toUpper
      rw [dif_pos h]
    have hoffset : ('A'.val - 'a'.val).toNat = 4294967264 := by decide
    have hsum : c.toUpper.toNat = (c.toNat + 4294967264) % 2 ^ 32 := by
      rw [Char.toNat, hval, UInt32.toNat_add, hoffset, Char.toNat]
    rw [if_pos hc, hsum]
    omega
  · have hsame : c.toUpper = c := dif_neg h
    rw [if_neg (mt hrange.mpr h), hsame]

theorem toLower_eq_iff {c k : Char} (hk : k.toLower = k) :
    c.toLower = k ↔ c = k ∨ c = k.toUpper := by
  rw [← Char.toNat_inj, toNat_toLower] at hk
  rw [← Char.toNat_inj, ← Char.toNat_inj, ← Char.toNat_inj, toNat_toLower, toNat_toUpper]
  split at hk <;> split <;> split <;> omega

theorem lowerLetter_eq_iff {l : Letter} {k : Char} (hk : k.toLower = k) :
    lowerLetter l = .char k ↔ l = .char k ∨ l = .char k.toUpper := by
  cases l with
  | surrogate n => simp [lowerLetter]
  | char c =>
    rw [lowerLetter, Letter.char.injEq, Letter.char.injEq, Letter.char.injEq]
    exact toLower_eq_iff hk

theorem lowerAscii_eq_iff {word : String} (hword : ∀ k ∈ word.toList, k.toLower = k) {s : Text} :
    s.lowerAscii = word ↔ s.InAnyCase word := by
  rw [InAnyCase, lowerAscii, Text.ext_iff]
  show s.letters.map lowerLetter = word.toList.map .char ↔ _
  generalize word.toList = ks at hword
  generalize s.letters = ls
  induction ks generalizing ls with
  | nil => simp
  | cons k ks ih =>
    obtain ⟨hk, hks⟩ := List.forall_mem_cons.mp hword
    cases ls with
    | nil => simp
    | cons l ls =>
      rw [List.map_cons, List.map_cons, List.cons.injEq, List.forall₂_cons, lowerLetter_eq_iff hk,
        ih hks]

end Text

namespace Settings

/-! ### Words for switches -/

/-- The words that stand for a switch, in small letters. -/
def spellings : Bool → List String
  | true => ["true", "1", "yes", "on"]
  | false => ["false", "0", "no", "off"]

theorem mem_spellings_iff {s : Text} {on : Bool} :
    s.lowerAscii ∈ (spellings on).map Text.ofString ↔ ∃ word ∈ spellings on, s.InAnyCase word := by
  have hsmall : ∀ on, ∀ word ∈ spellings on, ∀ k ∈ word.toList, k.toLower = k := by
    simp [spellings]
  rw [List.mem_map]
  refine exists_congr fun word => and_congr_right fun hword => ?_
  rw [← Text.lowerAscii_eq_iff (hsmall on word hword)]
  exact eq_comm

theorem switch?_eq_some_iff {s : Text} {on : Bool} :
    switch? s = some on ↔ ∃ word ∈ spellings on, s.InAnyCase word := by
  have hdisjoint : ∀ word ∈ offWords, word ∉ onWords := by decide
  rw [← mem_spellings_iff]
  cases on with
  | true =>
    show switch? s = some true ↔ s.lowerAscii ∈ onWords
    by_cases h : s.lowerAscii ∈ onWords <;> simp [switch?, h]
  | false =>
    show switch? s = some false ↔ s.lowerAscii ∈ offWords
    by_cases h : s.lowerAscii ∈ offWords
    · simp [switch?, h, hdisjoint _ h]
    · by_cases h' : s.lowerAscii ∈ onWords <;> simp [switch?, h, h']

/-- The value of an option: a switch if it is a word for one, or else the word itself. -/
def readFlag (value : Text) : FlagValue := ((switch? value).map .switch).getD (.word value)

theorem readFlag_eq_switch_iff {value : Text} {on : Bool} :
    readFlag value = .switch on ↔ ∃ word ∈ spellings on, value.InAnyCase word := by
  rw [← switch?_eq_some_iff, readFlag]
  cases switch? value <;> simp

theorem readFlag_eq_word {value : Text} (h : ∀ on, ∀ word ∈ spellings on, ¬value.InAnyCase word) :
    readFlag value = .word value := by
  cases hflag : switch? value with
  | none => rw [readFlag, hflag]; rfl
  | some on =>
    obtain ⟨word, hword, hcase⟩ := switch?_eq_some_iff.mp hflag
    exact absurd hcase (h on word hword)

/-! ### Options -/

/-- An option is this name, an equals sign and this value. -/
def Spells (option name value : Text) : Prop :=
  name ≠ "" ∧ .char '=' ∉ name.letters ∧ option = name ++ "=" ++ value

/-- An option has no equals sign, or nothing before it. -/
def Nameless (option : Text) : Prop :=
  .char '=' ∉ option.letters ∨ option.letters.head? = some (.char '=')

/-- The complaint about an option. -/
def unnamed (option : Text) : Failure :=
  .invalidFlag (.text option) (.text option) (.text "expected name=value")

section Options

variable {option name value : Text}

theorem letters_of_spells (h : Spells option name value) :
    option.letters = name.letters ++ .char '=' :: value.letters := by
  rw [h.2.2]
  exact List.append_assoc _ _ _

theorem parseOption_of_spells (h : Spells option name value) :
    parseOption option = .ok (name, readFlag value) := by
  have hletters := letters_of_spells h
  obtain ⟨hname, hsign, -⟩ := h
  have hbefore : option.letters.takeWhile (· != .char '=') = name.letters := by
    rw [hletters, List.takeWhile_append_of_pos]
    · simp
    · intro l hl
      rw [bne_iff_ne]
      rintro rfl
      exact hsign hl
  have hafter : option.letters.drop name.letters.length = .char '=' :: value.letters := by
    rw [hletters, List.drop_left]
  have hnonempty : name.letters.isEmpty = false := by
    rw [List.isEmpty_eq_false_iff]
    exact fun hnil => hname (Text.ext hnil)
  rw [parseOption, hbefore, hafter]
  show (if name.letters.isEmpty then _ else _) = _
  rw [hnonempty]
  rfl

theorem parseOption_of_nameless (h : Nameless option) :
    parseOption option = .error (unnamed option) := by
  unfold parseOption
  rcases h with hsign | hhead
  · have hall : option.letters.takeWhile (· != .char '=') = option.letters := by
      rw [List.takeWhile_eq_self_iff]
      intro l hl
      rw [bne_iff_ne]
      rintro rfl
      exact hsign hl
    simp only [hall, List.drop_length]
    rfl
  · obtain ⟨rest, hrest⟩ := List.head?_eq_some_iff.mp hhead
    simp only [hrest]
    rfl

theorem exists_spells (h : ¬Nameless option) : ∃ name value, Spells option name value := by
  obtain ⟨hsign, hhead⟩ := not_or.mp h
  obtain ⟨before, after, hletters, hbefore⟩ := List.eq_append_cons_of_mem (not_not.mp hsign)
  refine ⟨⟨before⟩, ⟨after⟩, fun hempty => hhead ?_, hbefore, Text.ext ?_⟩
  · obtain rfl : before = [] := congrArg Text.letters hempty
    rw [hletters]
    rfl
  · rw [hletters]
    exact (List.append_assoc before [.char '='] after).symm

end Options

/-! ### Lists of options -/

/-- Options that spell these names and values, one after another. -/
def AllSpell (options : List Text) (flags : List (Text × Text)) : Prop :=
  List.Forall₂ (fun option flag => Spells option flag.1 flag.2) options flags

/-- The values that options give, a name that is given again by its last option. -/
def overridesOf (flags : List (Text × Text)) : Dict Text Value :=
  .ofList (flags.map fun flag => (flag.1, (readFlag flag.2).toValue))

theorem get?_overridesOf (flags : List (Text × Text)) (name : Text) :
    (overridesOf flags).get? name =
      (flags.reverse.lookup name).map fun value => (readFlag value).toValue := by
  rw [overridesOf, Dict.get?_ofList, ← List.map_reverse]
  exact Entries.lookup_map (f := id) (fun _ _ h => h)
    (fun _ value => (readFlag value).toValue) name flags.reverse

theorem keys_overridesOf (flags : List (Text × Text)) :
    (overridesOf flags).keys = (flags.map Prod.fst).eraseDups := by
  rw [overridesOf, Dict.keys_ofList, List.map_map]
  rfl

theorem exists_allSpell {options : List Text} (h : ∀ option ∈ options, ¬Nameless option) :
    ∃ flags, AllSpell options flags := by
  induction options with
  | nil => exact ⟨[], .nil⟩
  | cons option options ih =>
    obtain ⟨hoption, hrest⟩ := List.forall_mem_cons.mp h
    obtain ⟨name, value, hspells⟩ := exists_spells hoption
    obtain ⟨flags, hflags⟩ := ih hrest
    exact ⟨(name, value) :: flags, .cons hspells hflags⟩

theorem parseOptions_of_allSpell {options : List Text} {flags : List (Text × Text)}
    (h : AllSpell options flags) :
    parseOptions options = .ok (flags.map fun flag => (flag.1, (readFlag flag.2).toValue)) := by
  induction h with
  | nil => rfl
  | cons hspells _ ih =>
    rw [parseOptions, parseOption_of_spells hspells, ih]
    rfl

/-- The first option that has no name is what is wrong with the options. -/
theorem parseOptions_of_nameless {before : List Text} {option : Text}
    (hbefore : ∀ o ∈ before, ¬Nameless o) (h : Nameless option) (after : List Text) :
    parseOptions (before ++ option :: after) = .error (unnamed option) := by
  induction before with
  | nil =>
    rw [List.nil_append, parseOptions, parseOption_of_nameless h]
    rfl
  | cons o before ih =>
    obtain ⟨ho, hrest⟩ := List.forall_mem_cons.mp hbefore
    obtain ⟨name, value, hspells⟩ := exists_spells ho
    rw [List.cons_append, parseOptions, parseOption_of_spells hspells, ih hrest]
    rfl

/-! ### One flag alone -/

/-- Flags given again and again are as good as a table of them. -/
theorem load_entries (src : Sources) (config : Option Text) (overrides : List (Text × Value)) :
    load src config (Dict.ofList overrides).entries = load src config overrides := by
  simp only [load, Dict.putAll_ofList]

theorem ext_values {s t : Settings} (hkeys : s.flags.keys = t.flags.keys)
    (h : ∀ name, (s.get? name).map FlagValue.toValue = (t.get? name).map FlagValue.toValue) :
    s = t := by
  have hflags : s.flags = t.flags := by
    refine Dict.ext_get? hkeys fun name => ?_
    have hname := congrArg (Option.bind · FlagValue.ofValue?) (h name)
    simpa [Settings.get?, Option.bind_map, Function.comp_def] using hname
  cases s
  cases t
  cases hflags
  rfl

section Alone

variable {src : Sources} {overrides : List (Text × Value)} {name : Text} {flag : FlagValue}

theorem given_of_noFile (hfile : src.files.isThere projectFile = .ok false)
    (overrides : List (Text × Value)) :
    given src none overrides = .ok ⟨src.env, [], [], overrides⟩ := by
  rw [given, projectValues, valuesAt, hfile]
  rfl

theorem fit_of_default (name : Text) : (defaultTable.get? name).bind (unfit? name) = none := by
  by_cases h : name ∈ defaultTable.keys
  · obtain ⟨b, hb⟩ := switch_of_default h
    rw [hb]
    rfl
  · have hnone := Option.not_isSome_iff_eq_none.mp (mt Dict.get?_isSome.mp h)
    rw [hnone]
    rfl

/-- Where one flag is all that differs from the defaults, the settings are the defaults with
that flag. -/
theorem load_alone (hname : name ∈ defaultTable.keys)
    (hfile : src.files.isThere projectFile = .ok false)
    (hspelt : ∀ other, (defaultTable.get? other).bind (misspelt? src.env other) = none)
    (hnames : Given.names ⟨src.env, [], [], overrides⟩ = defaultTable.keys)
    (hfinal : ∀ other, Given.final? ⟨src.env, [], [], overrides⟩ other =
      if other = name then some flag.toValue else defaultTable.get? other) :
    (load src none overrides).collect.1 = .ok ⟨default.flags.put name flag⟩ := by
  -- Each of the defaults is a switch, so nothing that is given can be unfit.
  have hstop : Given.stop? ⟨src.env, [], [], overrides⟩ = none := by
    have hfit : ∀ other, (Given.final? ⟨src.env, [], [], overrides⟩ other).bind (unfit? other) =
        none := by
      intro other
      rw [hfinal]
      split
      · cases flag <;> rfl
      · exact fit_of_default other
    rw [Given.stop?, Option.or_eq_none_iff, Option.map_eq_none_iff, Option.map_eq_none_iff,
      List.findSome?_eq_none_iff, List.findSome?_eq_none_iff]
    exact ⟨fun other _ => hspelt other, fun other _ => hfit other⟩
  have hsettings := Given.settings_eq ⟨src.env, [], [], overrides⟩
  rw [hstop] at hsettings
  obtain ⟨s, hs, hkeys, hvalues⟩ := hsettings
  have hdefault : ∀ other, defaultTable.get? other =
      (default.flags.get? other).map FlagValue.toValue := get?_toTable default
  rw [collect_load, given_of_noFile hfile]
  show Given.settings ⟨src.env, [], [], overrides⟩ = _
  rw [hs]
  refine congrArg Except.ok (ext_values ?_ fun other => ?_)
  · have hmem : name ∈ default.flags.keys := keys_toTable default ▸ hname
    rw [hkeys, hnames, Dict.keys_put, if_pos hmem]
    exact keys_toTable default
  · rw [hvalues, hfinal, Settings.get?, Dict.get?_put, hdefault]
    split <;> rfl

/-- A standard flag without a variable keeps its value. -/
theorem kept_of_unset
    (hunset : name ∈ defaultTable.keys → src.env.lookup (variableOf name) = none) :
    (defaultTable.get? name).bind (misspelt? src.env name) = none ∧
      ((defaultTable.get? name).map fun current =>
        (environment? src.env name current).getD current) = defaultTable.get? name := by
  cases h : defaultTable.get? name with
  | none => exact ⟨rfl, rfl⟩
  | some current =>
    have hnone := hunset (Dict.get?_isSome.mp (by rw [h]; rfl))
    simp [misspelt?, environment?, hnone]

/-- A flag that an option alone gives. -/
theorem load_option (hname : name ∈ defaultTable.keys)
    (hfile : src.files.isThere projectFile = .ok false)
    (henv : ∀ other ∈ defaultTable.keys, src.env.lookup (variableOf other) = none)
    (flag : FlagValue) :
    (load src none [(name, flag.toValue)]).collect.1 = .ok ⟨default.flags.put name flag⟩ := by
  refine load_alone hname hfile (fun other => (kept_of_unset (henv other)).1) ?_ fun other => ?_
  · have hkeys : defaultTable.keys.eraseDups = defaultTable.keys :=
      Entries.eraseDups_of_nodup defaultTable.nodup
    show (defaultTable.keys ++ [name]).eraseDups = _
    rw [Entries.eraseDups_concat, if_pos hname, hkeys]
  · show (last? [(name, flag.toValue)] other).or ((defaultTable.get? other).map _) = _
    rw [(kept_of_unset (henv other)).2]
    by_cases h : other = name
    · subst h
      simp [last?]
    · rw [if_neg h, last?, List.reverse_singleton, Entries.lookup_cons_ne h]
      rfl

/-- A flag that a variable alone gives. -/
theorem load_variable {text : Text} {on : Bool} (hname : name ∈ defaultTable.keys)
    (hfile : src.files.isThere projectFile = .ok false)
    (henv : ∀ other ∈ defaultTable.keys,
      src.env.lookup (variableOf other) = if other = name then some text else none)
    (hword : switch? text = some on) :
    (load src none []).collect.1 = .ok ⟨default.flags.put name (.switch on)⟩ := by
  have hunset : ∀ other, other ≠ name →
      other ∈ defaultTable.keys → src.env.lookup (variableOf other) = none := by
    intro other hne hother
    rw [henv other hother, if_neg hne]
  have hset := henv name hname
  rw [if_pos rfl] at hset
  obtain ⟨b, hb⟩ := switch_of_default hname
  refine load_alone hname hfile (fun other => ?_) ?_ fun other => ?_
  · by_cases h : other = name
    · rw [h, hb]
      simp [misspelt?, hset, hword]
    · exact (kept_of_unset (hunset other h)).1
  · exact Entries.eraseDups_of_nodup defaultTable.nodup
  · show ((defaultTable.get? other).map _) = _
    by_cases h : other = name
    · rw [h, hb, if_pos rfl]
      simp [environment?, hset, hword, FlagValue.toValue]
    · rw [(kept_of_unset (hunset other h)).2, if_neg h]

/-- A variable that is no word for a switch keeps the settings from being loaded. -/
theorem switch?_of_load {text : Text} {s : Settings} (hname : name ∈ defaultTable.keys)
    (hfile : src.files.isThere projectFile = .ok false)
    (hset : src.env.lookup (variableOf name) = some text)
    (hs : (load src none []).collect.1 = .ok s) : ∃ on, switch? text = some on :=
  spelt_of_load (given_of_noFile hfile []) hs hset (switch_of_default hname)

end Alone

end Settings

namespace Command

open Settings

theorem settings_of_allSpell {options : List Text} {flags : List (Text × Text)}
    (h : AllSpell options flags) (hown : (Call.option.ownName : Text) ∉ flags.map Prod.fst)
    (src : Sources) (config : Option Text) :
    settings src config options = load src config (overridesOf flags).entries := by
  have hnames : (flags.map fun flag => (flag.1, (readFlag flag.2).toValue)).map Prod.fst =
      flags.map Prod.fst := by
    rw [List.map_map]
    rfl
  rw [settings, parseOptions_of_allSpell h]
  show (Logged.lift ((Call.option.arguments _).mapError Stop.clash) >>= fun overrides =>
    load src config overrides) = _
  rw [Call.arguments_texts, hnames, if_neg hown, overridesOf, load_entries]
  rfl

theorem ends_settings_of_nameless {before : List Text} {option : Text}
    (hbefore : ∀ o ∈ before, ¬Nameless o) (h : Nameless option) (after : List Text)
    (src : Sources) (config : Option Text) :
    (settings src config (before ++ option :: after)).Ends
      (.error (.failure (unnamed option))) [] := by
  rw [settings, parseOptions_of_nameless hbefore h]
  exact (Logged.ends_lift (Except.error (Stop.failure (unnamed option)))).bind_error

/-- A standard flag as an option, with nothing else given. -/
theorem settings_option {src : Sources} {name : Text} (hname : name ∈ defaultTable.keys)
    (hfile : src.files.isThere projectFile = .ok false)
    (henv : ∀ other ∈ defaultTable.keys, src.env.lookup (variableOf other) = none)
    (value : Text) :
    (settings src none [name ++ "=" ++ value]).collect.1 =
      .ok ⟨default.flags.put name (readFlag value)⟩ := by
  have hstandard : ∀ name ∈ defaultTable.keys,
      name ≠ "" ∧ .char '=' ∉ name.letters ∧ name ≠ Call.option.ownName := by decide
  obtain ⟨hnonempty, hsign, hown⟩ := hstandard name hname
  have hspell : AllSpell [name ++ "=" ++ value] [(name, value)] :=
    .cons ⟨hnonempty, hsign, rfl⟩ .nil
  rw [settings_of_allSpell hspell (by simpa using hown.symm)]
  exact load_option hname hfile henv (readFlag value)

/-- The first option without a name ends the command, whatever the files and the environment
hold, and nothing is noted before.  Otherwise the settings are loaded with one value for each
name, that of its last option: the switch that it is a word for, or else the text as it
stands.  For a standard flag an option does what its variable alone would do, and where the
variable is refused the option has the text. -/
theorem flags_resolved (options : List Text) :
    (∀ before option after, options = before ++ option :: after →
      (∀ o ∈ before, ¬Nameless o) → Nameless option → ∀ src config,
        (settings src config options).collect = (.error (.failure (unnamed option)), [])) ∧
    ((∀ option ∈ options, ¬Nameless option) → ∃ flags, AllSpell options flags) ∧
    (∀ flags, AllSpell options flags →
      ((Call.option.ownName : Text) ∉ flags.map Prod.fst → ∀ src config,
        settings src config options = load src config (overridesOf flags).entries) ∧
      (overridesOf flags).keys = (flags.map Prod.fst).eraseDups ∧
      ∀ name, (overridesOf flags).get? name =
        (flags.reverse.lookup name).map fun value => (readFlag value).toValue) ∧
    (∀ value,
      (∀ on, readFlag value = .switch on ↔ ∃ word ∈ spellings on, value.InAnyCase word) ∧
      ((∀ on, ∀ word ∈ spellings on, ¬value.InAnyCase word) → readFlag value = .word value)) ∧
    ∀ (name value : Text) (src src' : Sources), name ∈ defaultTable.keys →
      src.files.isThere projectFile = .ok false → src'.files.isThere projectFile = .ok false →
      (∀ other ∈ defaultTable.keys,
        src.env.lookup (variableOf other) = if other = name then some value else none) →
      (∀ other ∈ defaultTable.keys, src'.env.lookup (variableOf other) = none) →
      (∀ s, (load src none []).collect.1 = .ok s →
        (settings src' none [name ++ "=" ++ value]).collect.1 = .ok s) ∧
      ∀ stop, (load src none []).collect.1 = .error stop →
        ∃ s, (settings src' none [name ++ "=" ++ value]).collect.1 = .ok s ∧
          s.get? name = some (.word value) := by
  refine ⟨?_, exists_allSpell, fun flags hflags => ⟨settings_of_allSpell hflags,
      keys_overridesOf flags, get?_overridesOf flags⟩,
    fun value => ⟨fun on => readFlag_eq_switch_iff, readFlag_eq_word⟩,
    fun name value src src' hname hfile hfile' henv henv' => ?_⟩
  · rintro before option after rfl hbefore h src config
    exact (ends_settings_of_nameless hbefore h after src config).collect
  · rw [settings_option hname hfile' henv' value]
    constructor
    · intro s hs
      have hset : src.env.lookup (variableOf name) = some value :=
        (henv name hname).trans (if_pos rfl)
      obtain ⟨on, hword⟩ := switch?_of_load hname hfile hset hs
      rw [← hs, load_variable hname hfile henv hword, readFlag, hword]
      rfl
    · intro stop hstop
      cases hword : switch? value with
      | some on =>
        rw [load_variable hname hfile henv hword] at hstop
        cases hstop
      | none =>
        refine ⟨_, rfl, ?_⟩
        rw [Settings.get?, Dict.get?_put, if_pos rfl, readFlag, hword]
        rfl

/-- No files, and these variables. -/
def bareSources (env : List (Text × Text)) : Sources := ⟨.ofList [] [], "/", env⟩

/-- The flag `forof` as a variable and as an option: once with a word for a switch, and once
with another word. -/
theorem forof_given :
    (∃ s, (load (bareSources [("ESTREE_METRICS_FOROF", "Yes")]) none []).collect.1 = .ok s ∧
      (settings (bareSources []) none ["forof" ++ "=" ++ "Yes"]).collect.1 = .ok s) ∧
    ∃ stop s,
      (load (bareSources [("ESTREE_METRICS_FOROF", "each")]) none []).collect.1 = .error stop ∧
      (settings (bareSources []) none ["forof" ++ "=" ++ "each"]).collect.1 = .ok s ∧
      s.get? "forof" = some (.word "each") := by
  have hboth := (flags_resolved []).2.2.2.2
  have hload : (load (bareSources [("ESTREE_METRICS_FOROF", "Yes")]) none []).collect.1 = .ok _ :=
    rfl
  have hstop : (load (bareSources [("ESTREE_METRICS_FOROF", "each")]) none []).collect.1 =
    .error _ := rfl
  obtain ⟨hsame, -⟩ := hboth "forof" "Yes" (bareSources [("ESTREE_METRICS_FOROF", "Yes")])
    (bareSources []) (by decide) rfl rfl (by decide) (by decide)
  obtain ⟨-, hword⟩ := hboth "forof" "each" (bareSources [("ESTREE_METRICS_FOROF", "each")])
    (bareSources []) (by decide) rfl rfl (by decide) (by decide)
  obtain ⟨s, hs, hflag⟩ := hword _ hstop
  exact ⟨⟨_, hload, hsame _ hload⟩, _, s, hstop, hs, hflag⟩

end Command

end Estree
