import Estree.Text.Quoted

/-!
Text from bytes, and line ends.
-/

namespace Estree

namespace Text

namespace Utf8

inductive Flaw where
  /-- A byte that begins no character. -/
  | start
  /-- A byte that does not go on with the character begun before it. -/
  | continuation
  /-- The bytes end within a character. -/
  | ending
  deriving DecidableEq, Repr

/-- The bytes from `first` up to `stop` are no character and begin none that is
well formed; `byte` is the first of them. -/
structure Problem where
  flaw : Flaw
  first : Nat
  stop : Nat
  byte : UInt8
  deriving DecidableEq, Repr

namespace Problem

def reason : Flaw → String
  | .start => "invalid start byte"
  | .continuation => "invalid continuation byte"
  | .ending => "unexpected end of data"

def message (p : Problem) : String :=
  let place := if p.stop ≤ p.first + 1 then
      "byte 0x" ++ hexDigits 2 p.byte.toNat ++ " in position " ++ toString p.first
    else "bytes in position " ++ toString p.first ++ "-" ++ toString (p.stop - 1)
  "'utf-8' codec can't decode " ++ place ++ ": " ++ reason p.flaw

end Problem

/-- The ranges in which the bytes after a first byte have to lie.  The second byte
is held to a narrower range where the character would otherwise be written too
long, be a surrogate, or lie beyond the last code point. -/
def tails? (b : UInt8) : Option (List (UInt8 × UInt8)) :=
  let any : UInt8 × UInt8 := (0x80, 0xBF)
  if b < 0x80 then some []
  else if b < 0xC2 then none
  else if b < 0xE0 then some [any]
  else if b = 0xE0 then some [(0xA0, 0xBF), any]
  else if b = 0xED then some [(0x80, 0x9F), any]
  else if b < 0xF0 then some [any, any]
  else if b = 0xF0 then some [(0x90, 0xBF), any, any]
  else if b < 0xF4 then some [any, any, any]
  else if b = 0xF4 then some [(0x80, 0x8F), any, any]
  else none

/-- The bits of the code point that a first byte holds. -/
def leadBits (b : UInt8) : Nat :=
  if b < 0x80 then b.toNat
  else if b < 0xE0 then b.toNat - 0xC0
  else if b < 0xF0 then b.toNat - 0xE0
  else b.toNat - 0xF0

/-- A character that has begun: where, with which byte, its bits so far and the
ranges of the bytes that are owed. -/
structure Begun where
  first : Nat
  byte : UInt8
  bits : Nat
  owed : List (UInt8 × UInt8)

/-- Decode from a position on, within a character or between two, with the
characters so far, last first. -/
def decodeFrom (position : Nat) (begun : Option Begun) (past : List Char) :
    List UInt8 → Except Problem (List Char)
  | [] =>
    match begun with
    | none => .ok past.reverse
    | some c => .error ⟨.ending, c.first, position, c.byte⟩
  | b :: rest =>
    match begun with
    | none =>
      match tails? b with
      | none => .error ⟨.start, position, position + 1, b⟩
      | some [] => decodeFrom (position + 1) none (Char.ofNat b.toNat :: past) rest
      | some owed => decodeFrom (position + 1) (some ⟨position, b, leadBits b, owed⟩) past rest
    | some c =>
      match c.owed with
      | [] => .error ⟨.continuation, c.first, position, c.byte⟩
      | (low, high) :: more =>
        if low ≤ b && b ≤ high then
          let bits := c.bits * 64 + (b.toNat - 0x80)
          if more.isEmpty then decodeFrom (position + 1) none (Char.ofNat bits :: past) rest
          else decodeFrom (position + 1) (some { c with bits := bits, owed := more }) past rest
        else .error ⟨.continuation, c.first, position, c.byte⟩

def decode (bytes : List UInt8) : Except Problem (List Char) := decodeFrom 0 none [] bytes

end Utf8

/-- The text with every line end written as one line feed. -/
def unixLines : List Char → List Char
  | '\r' :: '\n' :: rest => '\n' :: unixLines rest
  | '\r' :: rest => '\n' :: unixLines rest
  | c :: rest => c :: unixLines rest
  | [] => []

end Text

end Estree
