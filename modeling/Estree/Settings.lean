import Estree.Entry
import Estree.Failure

/-!
Settings: flags that rules may read, by name.
-/

namespace Estree

inductive FlagValue where
  | switch (on : Bool)
  | word (s : Text)
  deriving DecidableEq, Repr

namespace FlagValue

def toValue : FlagValue → Value
  | .switch on => .bool on
  | .word s => .text s

def ofValue? : Value → Option FlagValue
  | .bool b => some (.switch b)
  | .text s => some (.word s)
  | _ => none

@[simp] theorem ofValue?_toValue (f : FlagValue) : ofValue? f.toValue = some f := by
  cases f <;> rfl

end FlagValue

/-- Flags whose names are text and whose values are switches or words. -/
structure Settings where
  flags : Dict Text FlagValue
  deriving Inhabited

namespace Settings

/-- The flags of the standard grammar.  The two branches that everybody counts are
on. -/
def defaults : List (Text × FlagValue) := [
  ("logicalor", .switch true),
  ("switchcase", .switch true),
  ("forin", .switch false),
  ("trycatch", .switch false),
  ("forof", .switch false)]

def default : Settings := ⟨.ofList defaults⟩

/-- A flag as given, or what is wrong with it. -/
def flagOf (name value : Value) : Except Failure (Text × FlagValue) :=
  match name, FlagValue.ofValue? value with
  | .text name, some flag => .ok (name, flag)
  | .text _, none =>
    .error (.invalidFlag name value (.text "flag values must be booleans or strings"))
  | _, _ => .error (.invalidFlag name value (.text "flag names must be strings"))

/-- The flags of a list of names and values, up to the first that is none. -/
def flagsOf : List (Value × Value) → Except Failure (List (Text × FlagValue))
  | [] => .ok []
  | (name, value) :: rest => do
    let flag ← flagOf name value
    let more ← flagsOf rest
    return flag :: more

/-- Settings from values under names of any kind.  Of several bad flags the first in
order is reported. -/
def ofEntries (entries : Keyed Value) : Except Failure Settings := do
  return ⟨.ofList (← flagsOf entries.pairs)⟩

/-- Settings from a table of values. -/
def ofTable (table : Dict Text Value) : Except Failure Settings := do
  return ⟨.ofList (← flagsOf (table.entries.map fun (k, v) => (.text k, v)))⟩

/-- The settings as a table of values. -/
def toTable (s : Settings) : Dict Text Value :=
  .ofList (s.flags.entries.map fun (k, v) => (k, v.toValue))

def get? (s : Settings) (name : Text) : Option FlagValue := s.flags.get? name

/-- The settings as rules see them. -/
def toFlags (s : Settings) : Flags := fun name => ((s.get? name).map FlagValue.toValue).getD .null

/-- A copy with some flags replaced or added. -/
def withFlags (s : Settings) (flags : List (Text × Value)) : Except Failure Settings :=
  ofTable (s.toTable.putAll flags)

/-- The same flags with the same values, in whatever order. -/
def same (s t : Settings) : Bool :=
  s.flags.size == t.flags.size && s.flags.entries.all fun (k, v) => t.get? k == some v

/-- The flags in alphabetical order of their names. -/
def sorted (s : Settings) : List (Text × FlagValue) :=
  s.flags.entries.mergeSort fun a b => !decide (b.1 < a.1)

/-- What is left of settings in their hash: the flags in order, with no difference
between the empty word and a switch that is off. -/
def digest (s : Settings) : List (Text × FlagValue) :=
  s.sorted.map fun (name, flag) => (name, if flag = .word "" then .switch false else flag)

end Settings

end Estree
