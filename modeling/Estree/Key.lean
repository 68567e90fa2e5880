import Estree.Dict
import Estree.Fault

/-!
Values as keys of a table.
-/

namespace Estree

/-- What a value counts as when it stands as a key: a switch or a whole float is
the same key as the whole number that equals it. -/
inductive Key where
  | null
  | int (i : Int)
  | float (x : Binary64)
  | text (s : Text)
  | moment (m : Moment)
  deriving DecidableEq, Repr

namespace Key

/-- The key that a value is.  Lists and objects are none, for they might change. -/
def of : Value → Except Fault Key
  | .null => .ok .null
  | .bool b => .ok (.int (if b then 1 else 0))
  | .int i => .ok (.int i)
  | .float x => .ok ((x.int?.map Key.int).getD (.float x))
  | .text s => .ok (.text s)
  | .moment m => .ok (.moment m)
  | v => .error (.notAKey v.kind)

/-- The place of a number among the numbers: the infinite ones stand at the ends. -/
def place? : Key → Option (Int × Int)
  | .int i => some (0, i * Binary64.one)
  | .float (.finite negative scaled) => some (0, if negative then -scaled else scaled)
  | .float (.infinite negative) => some (if negative then -1 else 1, 0)
  | _ => none

def isNumber : Key → Bool
  | .int _ => true
  | .float _ => true
  | _ => false

/-- Whether one key comes before another, if they have an order: text by code,
numbers by size, NaN before none and after none. -/
def less? (a b : Key) : Option Bool :=
  match a, b with
  | .text s, .text t => some (decide (s < t))
  | a, b =>
    if a.isNumber && b.isNumber then
      some (match a.place?, b.place? with
        | some (p, x), some (q, y) => decide (p < q ∨ (p = q ∧ x < y))
        | _, _ => false)
    else none

end Key

/-- A table under keys of any kind, each with the value that it was first written
as. -/
abbrev Keyed (β : Type) := Dict Key (Value × β)

namespace Keyed

variable {β : Type}

/-- Write a value under a key, which goes on to be shown as before. -/
def write (d : Keyed β) (key : Key) (shown : Value) (v : β) : Keyed β :=
  d.put key (((d.get? key).map Prod.fst).getD shown, v)

def read? (d : Keyed β) (key : Key) : Option β := (d.get? key).map Prod.snd

/-- The keys as they are shown, with their values. -/
def pairs (d : Keyed β) : List (Value × β) := d.entries.map Prod.snd

/-- Add pairs one after another, up to the first that has no key. -/
def extend (d : Keyed β) : List (Value × β) → Except Fault (Keyed β)
  | [] => .ok d
  | (k, v) :: rest => do extend (d.write (← Key.of k) k v) rest

def ofPairs (pairs : List (Value × β)) : Except Fault (Keyed β) := extend .empty pairs

theorem read?_write (d : Keyed β) (key x : Key) (shown : Value) (v : β) :
    (d.write key shown v).read? x = if x = key then some v else d.read? x := by
  simp only [read?, write, Dict.get?_put]
  split <;> rfl

end Keyed

end Estree
