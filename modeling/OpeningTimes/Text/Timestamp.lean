import OpeningTimes.Calendar.Instant
import OpeningTimes.Text.Loose
import OpeningTimes.Text.Numeral

/-!
# Written dates, times and instants

Dates are year, month and day of the month with dashes between. A year has four digits; one that is
negative or has more digits carries its sign. A clock shows the leap second as second 60. A fraction
has three, six or nine digits and is left out where it is zero.

A timestamp is an instant in whole seconds. One is read in two steps: its form is looked at first,
with the numerals of any script, and then the date and the time in it are read as people type them.
So only the years 0 to 9999 can be read back, and only in their written form.
-/

namespace OpeningTimes

open Text

def Text.yearChars (year : Int) : List Char :=
  if 0 ≤ year ∧ year ≤ 9999 then fixedDigits 4 year.toNat
  else (if year < 0 then '-' else '+') :: paddedDigits 4 year.natAbs

def Date.chars (d : Date) : List Char :=
  yearChars d.year ++ '-' :: fixedDigits 2 d.month ++ '-' :: fixedDigits 2 d.day

def Date.text (d : Date) : String :=
  String.ofList d.chars

namespace TimeOfDay

def hourMinuteChars (t : TimeOfDay) : List Char :=
  fixedDigits 2 t.hour ++ ':' :: fixedDigits 2 t.minute

def clockChars (t : TimeOfDay) : List Char :=
  t.hourMinuteChars ++ ':' :: fixedDigits 2 t.clockSecond

def fractionChars (t : TimeOfDay) : List Char :=
  if t.fraction = 0 then []
  else if t.fraction % 1000000 = 0 then '.' :: fixedDigits 3 (t.fraction / 1000000)
  else if t.fraction % 1000 = 0 then '.' :: fixedDigits 6 (t.fraction / 1000)
  else '.' :: fixedDigits 9 t.fraction

def hourMinute (t : TimeOfDay) : String :=
  String.ofList t.hourMinuteChars

def text (t : TimeOfDay) : String :=
  String.ofList (t.clockChars ++ t.fractionChars)

end TimeOfDay

namespace Instant

def text (t : Instant) (separator : Char) : String :=
  String.ofList (t.date.chars ++ separator :: t.time.clockChars ++ t.time.fractionChars)

def shortText (t : Instant) : String :=
  String.ofList (t.date.chars ++ ' ' :: t.time.hourMinuteChars)

def timestampChars (t : Instant) : List Char :=
  t.date.chars ++ 'T' :: t.time.clockChars

/-- The instant without its fraction. -/
def timestamp (t : Instant) : String :=
  String.ofList t.timestampChars

/-- Whether every number of a text has its place and its width. -/
def hasTimestampForm : List Char → Bool
  | [y₁, y₂, y₃, y₄, '-', m₁, m₂, '-', d₁, d₂, 'T', h₁, h₂, ':', n₁, n₂, ':', s₁, s₂] =>
    [y₁, y₂, y₃, y₄, m₁, m₂, d₁, d₂, h₁, h₂, n₁, n₂, s₁, s₂].all isNumeral
  | _ => false

/-- Blanks may stand before the numbers, and leading zeros may be left out. -/
def ofLooseChars? (cs : List Char) : Option Instant := do
  let (year, cs) ← looseYear? (skipBlanks cs)
  let cs ← after? '-' cs
  let (month, cs) ← looseNumber? 2 (skipBlanks cs)
  let cs ← after? '-' cs
  let (day, cs) ← looseNumber? 2 (skipBlanks cs)
  let cs ← after? 'T' cs
  let (hour, cs) ← looseNumber? 2 (skipBlanks cs)
  let cs ← after? ':' cs
  let (minute, cs) ← looseNumber? 2 (skipBlanks cs)
  let cs ← after? ':' cs
  let (second, cs) ← looseNumber? 2 (skipBlanks cs)
  if cs.isEmpty then
    let date ← Date.ofYearMonthDay? year month day
    let time ← TimeOfDay.ofClock? hour minute second 0
    return ⟨date, time⟩
  else none

def ofTimestamp? (raw : String) : Option Instant :=
  if hasTimestampForm raw.toList then ofLooseChars? raw.toList else none

end Instant

end OpeningTimes
