import Estree.Settings
import Estree.Stop

/-!
Settings made from entries, and from others.

A flag that cannot be one is a failure, which has to be put into words: what cannot be
written in a failure ends the work in its stead.
-/

namespace Estree

namespace Settings

/-- Settings from values under names of any kind. -/
def make (entries : Keyed Value) : Except Stop Settings :=
  (ofEntries entries).mapError .ofFailure

/-- A copy with flags that are handed over as named arguments. -/
def copied (s : Settings) (flags : List (Value × Value)) : Except Stop Settings := do
  let named ← (Call.copy.arguments flags).mapError .clash
  (s.withFlags named).mapError .ofFailure

/-- A copy with flags that have names and values for flags. -/
def copyWith (s : Settings) (flags : Dict Text FlagValue) : Except Stop Settings :=
  s.copied (flags.entries.map fun (name, flag) => (.text name, flag.toValue))

end Settings

end Estree
