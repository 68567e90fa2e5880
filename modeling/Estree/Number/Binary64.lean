/-!
Binary64 numbers as exact fractions.  A finite number is a whole count of the
smallest step `2 ^ -1074`, so reading, comparing and writing numbers is
arithmetic on naturals, and nothing here rounds twice.
-/

namespace Estree

/-- A finite number is `scaled / 2 ^ 1074`; the sign stands apart because zero
has two. -/
inductive Binary64 where
  | finite (negative : Bool) (scaled : Nat)
  | infinite (negative : Bool)
  | nan
  deriving DecidableEq, Repr, Inhabited

namespace Binary64

/-- The number of smallest steps in one. -/
def one : Nat := Nat.pow 2 1074

/-- `a / d` to the nearest whole number, a half going to the even neighbour. -/
def nearest (a d : Nat) : Nat :=
  let q := a / d
  let r := a % d
  if 2 * r < d then q else if d < 2 * r then q + 1 else q + q % 2

/-- The exponent of the unit in the last place of a magnitude: 53 binary digits
are kept, and no unit is below the smallest step. -/
def unit (scaled : Nat) : Nat := scaled.log2 - 52

/-- The number closest to `num / den`.  A magnitude that rounds to `2 ^ 1024` or
more is infinite. -/
def ofRatio (negative : Bool) (num den : Nat) : Binary64 :=
  let step := Nat.pow 2 (unit (num * one / den))
  let scaled := nearest (num * one) (den * step) * step
  if scaled < Nat.pow 2 2098 then .finite negative scaled else .infinite negative

/-- The number closest to `digits * 10 ^ exponent`.  Magnitudes far outside the
range are settled by their decimal exponent alone, so that a huge exponent is
never written out. -/
def ofDecimal (negative : Bool) (digits : Nat) (exponent : Int) : Binary64 :=
  let size : Int := (Nat.toDigits 10 digits).length + exponent
  if digits = 0 ∨ size < -330 then .finite negative 0
  else if 310 < size then .infinite negative
  else match exponent with
    | .ofNat e => ofRatio negative (digits * Nat.pow 10 e) 1
    | .negSucc e => ofRatio negative digits (Nat.pow 10 (e + 1))

/-- Both zeros, and nothing else. -/
def isZero : Binary64 → Bool
  | .finite _ scaled => scaled == 0
  | _ => false

/-- The whole number that a number is, if it is one. -/
def int? : Binary64 → Option Int
  | .finite negative scaled =>
    if scaled % one = 0 then
      some (if negative then -(scaled / one : Nat) else (scaled / one : Nat))
    else none
  | _ => none

/-- Equality as numbers: the zeros agree and NaN differs from itself. -/
def same : Binary64 → Binary64 → Bool
  | .finite p a, .finite q b => a == b && (p == q || a == 0)
  | .infinite p, .infinite q => p == q
  | _, _ => false

/-- Equality with a whole number, which is exact at every size. -/
def sameInt : Binary64 → Int → Bool
  | .finite negative scaled, i =>
    scaled == i.natAbs * one && (scaled == 0 || negative == decide (i < 0))
  | _, _ => false

end Binary64

end Estree
