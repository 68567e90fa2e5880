import Estree.Number.Binary64

/-!
The text of a binary64 number: the fewest significant digits that read back to
the same number, of those the digits nearest to it, and halfway the even ones.
-/

namespace Estree

namespace Binary64

/-- The points whose nearest number is `scaled`, in quarters of the smallest
step.  The ends belong to it when its significand is even. -/
structure Span where
  low : Nat
  high : Nat
  closed : Bool

/-- Half a unit on each side, but half of that below a power of two, where the
unit changes. -/
def span (scaled : Nat) : Span :=
  let step := Nat.pow 2 (unit scaled)
  let significand := scaled / step
  let below := if significand == Nat.pow 2 52 && 1 < step then step else 2 * step
  { low := 4 * scaled - below, high := 4 * scaled + 2 * step, closed := significand % 2 == 0 }

/-- A number in decimal: `digits * 10 ^ exponent`. -/
structure Decimal where
  digits : Nat
  exponent : Int
  deriving DecidableEq, Repr

namespace Decimal

/-- The point and the value `quarters / (4 * one)` over a common denominator. -/
def against (p : Decimal) (quarters : Nat) : Nat × Nat :=
  match p.exponent with
  | .ofNat e => (p.digits * Nat.pow 10 e * (4 * one), quarters)
  | .negSucc e => (p.digits * (4 * one), quarters * Nat.pow 10 (e + 1))

/-- Whether the point reads back as the number of the span. -/
def within (p : Decimal) (s : Span) : Bool :=
  let (a, low) := p.against s.low
  let (b, high) := p.against s.high
  if s.closed then low ≤ a && b ≤ high else low < a && b < high

/-- The distance to a number, comparable between points of one exponent. -/
def distance (p : Decimal) (scaled : Nat) : Nat :=
  let (a, b) := p.against (4 * scaled)
  a - b + (b - a)

/-- Trailing zeros move into the exponent. -/
def trim : Nat → Decimal → Decimal
  | 0, p => p
  | fuel + 1, p =>
    if p.digits % 10 == 0 && p.digits != 0 then trim fuel ⟨p.digits / 10, p.exponent + 1⟩ else p

end Decimal

/-- The decimal exponent of the leading digit of a positive magnitude. -/
def leading (scaled : Nat) : Int :=
  if one ≤ scaled then (Nat.toDigits 10 (scaled / one)).length - 1
  else -((Nat.toDigits 10 ((one + scaled - 1) / scaled - 1)).length : Int)

/-- The point of the grid `10 ^ exponent` at or below a magnitude. -/
def floor (scaled : Nat) (exponent : Int) : Decimal :=
  match exponent with
  | .ofNat e => ⟨scaled / (one * Nat.pow 10 e), exponent⟩
  | .negSucc e => ⟨scaled * Nat.pow 10 (e + 1) / one, exponent⟩

/-- The closer of two neighbours on a grid; halfway between them, the even one. -/
def closer (scaled : Nat) (low high : Decimal) : Decimal :=
  let below := low.distance scaled
  let above := high.distance scaled
  if above < below || (above == below && low.digits % 2 == 1) then high else low

/-- The closer of the two grid neighbours that read back, if one does. -/
def onGrid (scaled : Nat) (exponent : Int) : Option Decimal :=
  let low := floor scaled exponent
  let high : Decimal := ⟨low.digits + 1, exponent⟩
  match low.within (span scaled), high.within (span scaled) with
  | true, true => some (closer scaled low high)
  | true, false => some low
  | false, true => some high
  | false, false => none

/-- The first grid with a hit, from one digit on; seventeen digits always
suffice. -/
def shortest (scaled : Nat) : Decimal :=
  let top := leading scaled
  let hit := (List.range 17).findSome? fun n : Nat => onGrid scaled (top - n)
  (hit.getD (floor scaled (top - 16))).trim 17

/-- How a number is laid out once its digits are known. -/
structure Layout where
  /-- The leading exponents written with a point in place. -/
  least : Int
  most : Int
  /-- The fewest digits of a written exponent. -/
  width : Nat

/-- Point in place from `0.0001` up to sixteen whole digits, otherwise an
exponent of two digits at least. -/
def layout : Layout := ⟨-4, 15, 2⟩

def zeros (n : Nat) : String := String.ofList (List.replicate n '0')

/-- The exponent mark with its sign always written. -/
def exponentText (e : Int) (width : Nat) : String :=
  let digits := (Nat.toDigits 10 e.natAbs)
  "e" ++ (if e < 0 then "-" else "+") ++ zeros (width - digits.length) ++ String.ofList digits

def Decimal.text (p : Decimal) (style : Layout) : String :=
  let digits := Nat.toDigits 10 p.digits
  let lead : Int := p.exponent + digits.length - 1
  if lead < style.least ∨ style.most < lead then
    let tail := digits.drop 1
    String.ofList (digits.take 1) ++ (if tail.isEmpty then "" else "." ++ String.ofList tail)
      ++ exponentText lead style.width
  else if 0 ≤ p.exponent then String.ofList digits ++ zeros p.exponent.toNat ++ ".0"
  else if 0 ≤ lead then
    String.ofList (digits.take (lead.toNat + 1)) ++ "."
      ++ String.ofList (digits.drop (lead.toNat + 1))
  else "0." ++ zeros (-lead - 1).toNat ++ String.ofList digits

/-- The text of a number, which reads back to it. -/
def text : Binary64 → String
  | .nan => "nan"
  | .infinite negative => if negative then "-inf" else "inf"
  | .finite negative scaled =>
    (if negative then "-" else "") ++
      (if scaled == 0 then "0.0" else (shortest scaled).text layout)

end Binary64

end Estree
