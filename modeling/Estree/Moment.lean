/-!
Calendar dates and times of day, as configuration files may hold them.
-/

namespace Estree

structure Date where
  year : Nat
  month : Nat
  day : Nat
  deriving DecidableEq, Repr

structure Clock where
  hour : Nat
  minute : Nat
  second : Nat
  micro : Nat
  deriving DecidableEq, Repr

/-- A date, a time of day, or both with the minutes by which the place is ahead
of universal time, if they are known. -/
inductive Moment where
  | date (d : Date)
  | clock (c : Clock)
  | dateTime (d : Date) (c : Clock) (offset : Option Int)
  deriving DecidableEq, Repr

namespace Date

def isLeap (year : Nat) : Bool := (year % 4 == 0 && year % 100 != 0) || year % 400 == 0

def daysIn (year month : Nat) : Nat :=
  if month == 2 then (if isLeap year then 29 else 28)
  else if month == 4 || month == 6 || month == 9 || month == 11 then 30 else 31

/-- A day of the calendar; there is no year zero. -/
def valid (d : Date) : Bool :=
  1 ≤ d.year && 1 ≤ d.month && d.month ≤ 12 && 1 ≤ d.day && d.day ≤ daysIn d.year d.month

end Date

namespace Moment

def padded (width n : Nat) : String :=
  let digits := Nat.toDigits 10 n
  String.ofList (List.replicate (width - digits.length) '0' ++ digits)

def dateText (d : Date) : String :=
  padded 4 d.year ++ "-" ++ padded 2 d.month ++ "-" ++ padded 2 d.day

def clockText (c : Clock) : String :=
  padded 2 c.hour ++ ":" ++ padded 2 c.minute ++ ":" ++ padded 2 c.second
    ++ (if c.micro == 0 then "" else "." ++ padded 6 c.micro)

def offsetText (minutes : Int) : String :=
  (if minutes < 0 then "-" else "+") ++ padded 2 (minutes.natAbs / 60) ++ ":"
    ++ padded 2 (minutes.natAbs % 60)

/-- The moment as it is read aloud: `1979-05-27 07:32:00-07:00`. -/
def plain : Moment → String
  | .date d => dateText d
  | .clock c => clockText c
  | .dateTime d c offset => dateText d ++ " " ++ clockText c ++ (offset.map offsetText).getD ""

/-- The parts of a time of day that are written out: seconds and microseconds
only when they are not zero. -/
def clockParts (c : Clock) : List Nat :=
  [c.hour, c.minute]
    ++ (if c.second == 0 && c.micro == 0 then [] else [c.second])
    ++ (if c.micro == 0 then [] else [c.micro])

def zoneText (minutes : Int) : String :=
  if minutes == 0 then "datetime.timezone.utc"
  else
    let span := if minutes < 0 then s!"days=-1, seconds={86400 + 60 * minutes}"
      else s!"seconds={60 * minutes}"
    s!"datetime.timezone(datetime.timedelta({span}))"

def listed (parts : List Nat) : String := String.intercalate ", " (parts.map toString)

/-- The moment as it stands inside a quoted value. -/
def quoted : Moment → String
  | .date d => s!"datetime.date({listed [d.year, d.month, d.day]})"
  | .clock c => s!"datetime.time({listed (clockParts c)})"
  | .dateTime d c offset =>
    let zone := match offset with
      | none => ""
      | some minutes => ", tzinfo=" ++ zoneText minutes
    "datetime.datetime(" ++ listed ([d.year, d.month, d.day] ++ clockParts c) ++ zone ++ ")"

/-- The name of the kind of moment. -/
def kind : Moment → String
  | .date _ => "datetime.date"
  | .clock _ => "datetime.time"
  | .dateTime .. => "datetime.datetime"

end Moment

end Estree
