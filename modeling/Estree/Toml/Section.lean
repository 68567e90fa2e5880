import Estree.Value
import Estree.Dict

/-!
A TOML document while it is read: which tables may still be added to, and how.
-/

namespace Estree

namespace Toml

/-- How a table came to be. -/
inductive Origin where
  /-- By the name of a table below it. -/
  | implied
  /-- By a dotted key in the part of that number. -/
  | dotted (part : Nat)
  /-- By a header of its own. -/
  | declared
  deriving DecidableEq, Repr

/-- What a name stands for. -/
inductive Item where
  /-- A value, to which nothing can be added. -/
  | value (v : Value)
  | table (origin : Origin) (entries : List (String × Item))
  /-- The tables of a list, of which only the last can be added to; the earlier
  ones, last first. -/
  | tables (earlier : List (List (String × Item))) (last : List (String × Item))

/-- The entries of a table. -/
abbrev Items := List (String × Item)

namespace Items

/-- Change what a name stands for, in its place or at the end. -/
def alter (f : Option Item → Option Item) (k : String) (entries : Items) : Option Items :=
  (f (entries.lookup k)).map fun item => Entries.put k item entries

/-- Change the table at the end of a path of headers.  Missing tables are implied,
and of a list the last table is meant. -/
def within (f : Items → Option Items) : List String → Items → Option Items
  | [], entries => f entries
  | k :: path, entries =>
    entries.alter (fun
      | none => (within f path []).map (.table .implied)
      | some (.table origin sub) => (within f path sub).map (.table origin)
      | some (.tables earlier last) => (within f path last).map (.tables earlier)
      | some (.value _) => none) k

/-- Change the table at the end of a dotted key.  A key may go on with tables that
keys of its own part or only longer headers have made. -/
def withinKey (part : Nat) (f : Items → Option Items) : List String → Items → Option Items
  | [], entries => f entries
  | k :: path, entries =>
    entries.alter (fun
      | none => (withinKey part f path []).map (.table (.dotted part))
      | some (.table origin sub) =>
        if origin = .implied ∨ origin = .dotted part then
          (withinKey part f path sub).map (.table (.dotted part))
        else none
      | some _ => none) k

/-- A key may be given once. -/
def define (v : Value) (k : String) (entries : Items) : Option Items :=
  entries.alter (fun
    | none => some (.value v)
    | some _ => none) k

/-- Give the key `path.k` of a part its value. -/
def assign (part : Nat) (header path : List String) (k : String) (v : Value) (entries : Items) :
    Option Items :=
  entries.within (withinKey part (define v k) path) header

/-- Declare the table `path.k`, which may be implied already but no more. -/
def declare (path : List String) (k : String) (entries : Items) : Option Items :=
  entries.within (alter (fun
    | none => some (.table .declared [])
    | some (.table .implied sub) => some (.table .declared sub)
    | some _ => none) k) path

/-- Add a table to the list `path.k`. -/
def append (path : List String) (k : String) (entries : Items) : Option Items :=
  entries.within (alter (fun
    | none => some (.tables [] [])
    | some (.tables earlier last) => some (.tables (last :: earlier) [])
    | some _ => none) k) path

end Items

mutual

/-- What a name stands for once the document is complete. -/
def Item.toValue : Item → Value
  | .value v => v
  | .table _ entries => .mapping (toFields entries)
  | .tables earlier last => .list ((.mapping (toFields last) :: toMappings earlier).reverse)

def toFields : List (String × Item) → List (Text × Value)
  | [] => []
  | (k, item) :: rest => (k, item.toValue) :: toFields rest

def toMappings : List (List (String × Item)) → List Value
  | [] => []
  | entries :: rest => .mapping (toFields entries) :: toMappings rest

end

end Toml

end Estree
