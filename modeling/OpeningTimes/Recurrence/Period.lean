import OpeningTimes.Expression.Rule

/-!
# Periods of a schedule

The kinds of selectors that rules use decide how their schedule repeats. A selector that covers
every day, such as all weekdays or twelve months, does not count.
-/

namespace OpeningTimes

structure SelectorKinds where
  weekday : Bool := false
  occurrence : Bool := false
  holiday : Bool := false
  month : Bool := false
  day : Bool := false
  week : Bool := false
  year : Bool := false
deriving BEq, DecidableEq, Repr

namespace SelectorKinds

instance : Union SelectorKinds := ⟨fun a b =>
  { weekday := a.weekday || b.weekday
    occurrence := a.occurrence || b.occurrence
    holiday := a.holiday || b.holiday
    month := a.month || b.month
    day := a.day || b.day
    week := a.week || b.week
    year := a.year || b.year }⟩

def ofList (kinds : List SelectorKinds) : SelectorKinds :=
  kinds.foldl (· ∪ ·) {}

/-- One bit for each kind, in the order of the fields. -/
def bits (k : SelectorKinds) : Nat :=
  k.weekday.toNat + 2 * k.occurrence.toNat + 4 * k.holiday.toNat + 8 * k.month.toNat +
    16 * k.day.toNat + 32 * k.week.toNat + 64 * k.year.toNat

end SelectorKinds

/-- Months that go on to the month before they start with are all twelve. -/
def CalendarSpan.isWholeYear : CalendarSpan → Bool
  | .months none start stop => stop % 12 + 1 == start
  | _ => false

def CalendarSpan.isDays : CalendarSpan → Bool
  | .days _ _ => true
  | .months _ _ _ => false

def Rule.kinds (r : Rule) : SelectorKinds :=
  { weekday := !r.days.weekdays.isEmpty && r.days.weekdays != Weekdays.full
    occurrence := !r.days.occurrences.isEmpty
    holiday := !r.days.holidays.isEmpty
    month := r.calendar.any fun range => !range.isDays && !range.isWholeYear
    day := r.calendar.any CalendarSpan.isDays
    week := !r.weeks.isEmpty
    year := !r.years.isEmpty }

inductive Period where
  /-- Every day is the same. -/
  | constant
  | weekly
  | yearly
  /-- Weekdays along with the calendar come round after 400 years. -/
  | gregorian
deriving BEq, DecidableEq, Repr

namespace Period

/-- Years and holidays do not count, since they come to an end. -/
def ofKinds (k : SelectorKinds) : Period :=
  if !(k.month || k.day || k.occurrence || k.week) then .weekly
  else if !(k.weekday || k.occurrence || k.week) then .yearly
  else .gregorian

/-- The day by which a search from some day has seen a whole period. Eight years hold both a leap
year and a common one. -/
def after? (p : Period) (d : Date) : Option Date :=
  match p with
  | .constant => d.shift? 1
  | .weekly => d.shift? 7
  | .yearly => Date.newYear? (d.year + 9)
  | .gregorian => d.shift? Calendar.cycleDays

def before? (p : Period) (d : Date) : Option Date :=
  match p with
  | .constant => d.shift? (-1)
  | .weekly => d.shift? (-7)
  | .yearly => Date.newYear? (d.year - 8)
  | .gregorian => d.shift? (-Calendar.cycleDays)

end Period

end OpeningTimes
