import OpeningTimes.Calendar.Date

/-!
# Ranges of years, months, days of the year and weeks

Months, days and weeks run in a cycle: a range whose end comes before its start goes over the end of
the year. A range with a year lies between two fixed dates instead.
-/

namespace OpeningTimes

open Calendar

/-- Whether a value lies between two others, where the values run in a cycle. -/
def withinCycle [LE α] [DecidableLE α] (x start stop : α) : Bool :=
  if start ≤ stop then start ≤ x && x ≤ stop else start ≤ x || x ≤ stop

/-- Every so many years from the first one on. -/
structure YearSpan where
  start : Int
  stop : Option Int
  step : Nat
deriving BEq, DecidableEq, Repr

def YearSpan.covers (r : YearSpan) (year : Int) : Bool :=
  r.start ≤ year && r.stop.all (year ≤ ·) && (year - r.start) % (max r.step 1 : Nat) == 0

structure MonthDay where
  month : Nat
  day : Nat
deriving BEq, DecidableEq, Repr

namespace MonthDay

instance : LE MonthDay := ⟨fun a b => a.month < b.month ∨ a.month = b.month ∧ a.day ≤ b.day⟩

instance : DecidableLE MonthDay :=
  fun a b => inferInstanceAs (Decidable (a.month < b.month ∨ a.month = b.month ∧ a.day ≤ b.day))

theorem le_iff {a b : MonthDay} :
    a ≤ b ↔ a.month < b.month ∨ a.month = b.month ∧ a.day ≤ b.day := Iff.rfl

end MonthDay

def Date.monthDay (d : Date) : MonthDay := ⟨d.month, d.day⟩

/-- A day of every year, or of one year only. -/
structure CalendarDay extends MonthDay where
  year : Option Int
deriving BEq, DecidableEq, Repr

inductive CalendarSpan where
  | months (year : Option Int) (start stop : Nat)
  | days (start : CalendarDay) (stop : Option CalendarDay)
deriving BEq, DecidableEq, Repr

/-- The dates from one on up to, and without, another. -/
structure DateBounds where
  start : Date
  stop : Option Date
deriving DecidableEq, Repr

def DateBounds.contains (b : DateBounds) (d : Date) : Bool :=
  b.start ≤ d && b.stop.all (d < ·)

/-- The last day of the month where the month has no such day. -/
def Date.ofClamped? (year : Int) (d : MonthDay) : Option Date :=
  ofYearMonthDay? year d.month (min d.day (monthLength year d.month))

namespace CalendarSpan

/-- The year in which a range ends that starts in the given one. -/
def stopYear (year : Int) (wraps : Bool) : Int :=
  if wraps then year + 1 else year

/-- The dates of a range that is pinned to a year, as far as the calendar holds them. -/
def bounds? : CalendarSpan → Option DateBounds
  | .months none _ _ => none
  | .months (some year) start stop => do
    let first ← Date.ofYearMonthDay? year start 1
    let after ← Date.afterMonth? (stopYear year (stop < start)) stop
    return ⟨first, some after⟩
  | .days start stop => do
    let year ← start.year
    let first ← Date.ofClamped? year start.toMonthDay
    match stop with
    | none => return ⟨first, none⟩
    | some stop =>
      let wraps := !decide (start.toMonthDay ≤ stop.toMonthDay)
      let last ← Date.ofClamped? (stop.year.getD (stopYear year wraps)) stop.toMonthDay
      let after ← last.succ?
      return ⟨first, some after⟩

def covers (r : CalendarSpan) (d : Date) : Bool :=
  match r with
  | .months none start stop => withinCycle d.month start stop
  | .months (some year) start stop =>
    let stopYear := stopYear year (stop < start)
    (year < d.year || year == d.year && start ≤ d.month) &&
      (d.year < stopYear || d.year == stopYear && d.month ≤ stop)
  | .days start stop =>
    match start.year, stop with
    | none, none => start.toMonthDay ≤ d.monthDay
    | none, some stop => withinCycle d.monthDay start.toMonthDay stop.toMonthDay
    | some _, _ => r.bounds?.any (·.contains d)

end CalendarSpan

/-- Weeks by their ISO number. -/
structure WeekSpan where
  start : Nat
  stop : Nat
  step : Nat
deriving BEq, DecidableEq, Repr

/-- Only a range inside the year counts in steps. -/
def WeekSpan.covers (r : WeekSpan) (d : Date) : Bool :=
  if r.start ≤ r.stop then
    r.start ≤ d.isoWeek && d.isoWeek ≤ r.stop && (d.isoWeek - r.start) % max r.step 1 == 0
  else r.start ≤ d.isoWeek || d.isoWeek ≤ r.stop

end OpeningTimes
