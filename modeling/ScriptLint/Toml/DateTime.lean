/-!
# Dates and times in a settings document

A day of the calendar, a time of day, or a day with a time, which may say how far its clock is from
the common one.  The text of each is the shortest one that a document may hold for it.
-/

namespace ScriptLint
namespace Toml

/-- A number with at least the given count of digits. -/
def padded (count n : Nat) : String :=
  let digits := Nat.toDigits 10 n
  String.ofList (List.replicate (count - digits.length) '0' ++ digits)

structure Date where
  year : Nat
  month : Nat
  day : Nat
deriving DecidableEq, Repr

namespace Date

/-- Every fourth year has a leap day, but of the full centuries only every fourth one. -/
def isLeapYear (year : Nat) : Bool :=
  year % 4 == 0 && (year % 100 != 0 || year % 400 == 0)

def daysInMonth (year month : Nat) : Nat :=
  if month = 2 then
    if isLeapYear year then 29 else 28
  else if month = 4 || month = 6 || month = 9 || month = 11 then
    30
  else
    31

def text (date : Date) : String :=
  padded 4 date.year ++ "-" ++ padded 2 date.month ++ "-" ++ padded 2 date.day

end Date

structure Time where
  hour : Nat
  minute : Nat
  second : Nat
  nanosecond : Nat
deriving DecidableEq, Repr

namespace Time

/-- The part of a second as text, without zeros at its end. -/
def fractionText (nanosecond : Nat) : String :=
  if nanosecond = 0 then
    ""
  else
    let digits := (padded 9 nanosecond).toList
    String.ofList ('.' :: (digits.reverse.dropWhile (· == '0')).reverse)

def text (time : Time) : String :=
  padded 2 time.hour ++ ":" ++ padded 2 time.minute ++ ":" ++ padded 2 time.second ++
    fractionText time.nanosecond

end Time

/-- How far a clock is from the common one. -/
inductive ClockOffset where
  /-- The clock is the common one. -/
  | none
  /-- The clock is ahead by a number of minutes, or behind. -/
  | minutes (count : Int)
deriving DecidableEq, Repr

def ClockOffset.text : ClockOffset → String
  | none => "Z"
  | minutes count =>
    (if count < 0 then "-" else "+") ++ padded 2 (count.natAbs / 60) ++ ":" ++
      padded 2 (count.natAbs % 60)

/-- A day, a time of day, or both. -/
inductive DateTime where
  | day (date : Date)
  | clock (time : Time)
  | moment (date : Date) (time : Time) (offset : Option ClockOffset)
deriving DecidableEq, Repr

def DateTime.text : DateTime → String
  | day date => date.text
  | clock time => time.text
  | moment date time offset =>
    date.text ++ "T" ++ time.text ++ (offset.map ClockOffset.text).getD ""

end Toml
end ScriptLint
