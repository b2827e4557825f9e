import OpeningTimes.Expression.Grammar.Reading
import OpeningTimes.Expression.Rule

/-!
# Reading date selectors

Years, months and days of the year, weeks, weekdays and holidays. A number of four digits is a year;
it belongs to a date where a month follows and stands for itself otherwise.
-/

namespace OpeningTimes.Grammar

open Calendar

def startsYear : List Lexeme → Bool
  | .number _ 4 :: .month _ :: _ => false
  | .number _ 4 :: _ => true
  | _ => false

def startsCalendarSpan : List Lexeme → Bool
  | .month _ :: _ => true
  | .number _ 4 :: .month _ :: _ => true
  | _ => false

def startsNumber : List Lexeme → Bool
  | .number _ _ :: _ => true
  | _ => false

def startsDay : List Lexeme → Bool
  | .number _ 1 :: _ => true
  | .number _ 2 :: _ => true
  | _ => false

def startsWeekday : List Lexeme → Bool
  | .weekday _ :: _ => true
  | _ => false

def startsDayEntry : List Lexeme → Bool
  | .weekday _ :: _ => true
  | .keyword (.holiday _) :: _ => true
  | _ => false

/-! ## Years -/

def year : Reader Int :=
  one .year fun
    | .number value 4 => if 1900 ≤ value ∧ value ≤ 9999 then some value else none
    | _ => none

def yearIfAny : Reader (Option Int)
  | .number value 4 :: ts => (year (.number value 4 :: ts)).map fun (y, rest) => (some y, rest)
  | ts => .ok (none, ts)

/-- Without a step every one counts. -/
def step : Reader Nat
  | .mark .slash :: ts =>
    one .step (fun
      | .number value _ => if 1 ≤ value then some value else none
      | _ => none) ts
  | ts => .ok (1, ts)

def yearSpan : Reader YearSpan := fun ts => do
  let (start, ts) ← year ts
  match ts with
  | .mark .plus :: ts => return (⟨start, none, 1⟩, ts)
  | .mark .dash :: ts =>
    let (stop, rest) ← year ts
    if stop < start then fail .yearsInOrder ts
    else
      let (step, rest) ← step rest
      return (⟨start, some stop, step⟩, rest)
  | _ => return (⟨start, some start, 1⟩, ts)

/-! ## Months and days of the year -/

def month : Reader Nat :=
  one .month fun
    | .month m => some m
    | _ => none

def day (month : Nat) : Reader Nat :=
  let last := longestMonth month
  one (.day last) fun
    | .number value 1 => if 1 ≤ value ∧ value ≤ last then some value else none
    | .number value 2 => if 1 ≤ value ∧ value ≤ last then some value else none
    | _ => none

/-- Whether two days with years are in the wrong order; a day without a year never is. -/
def runsBackwards (start stop : CalendarDay) : Bool :=
  match start.year, stop.year with
  | some y, some y' => y' < y || y' == y && !decide (start.toMonthDay ≤ stop.toMonthDay)
  | _, _ => false

/-- The end of a range of days: a day of the same month, or a day with its month, which may have a
year if the start has one. -/
def lastDay (start : CalendarDay) : Reader CalendarDay := fun ts => do
  if startsDay ts then
    let (d, rest) ← day start.month ts
    return (⟨⟨start.month, d⟩, none⟩, rest)
  else
    let (y, rest) ← yearIfAny ts
    if y.isSome && start.year.isNone then fail .month ts
    else
      let (m, rest) ← month rest
      let (d, rest) ← day m rest
      if runsBackwards start ⟨⟨m, d⟩, y⟩ then fail .datesInOrder ts
      else return (⟨⟨m, d⟩, y⟩, rest)

def daysFrom (start : CalendarDay) : Reader CalendarSpan
  | .mark .plus :: ts => .ok (.days start none, ts)
  | .mark .dash :: ts => do
    let (stop, rest) ← lastDay start ts
    return (.days start (some stop), rest)
  | ts => .ok (.days start (some { start with year := none }), ts)

/-- A second year has to be the one in which a range from the first one ends. -/
def monthsTo (y : Option Int) (start : Nat) : Reader CalendarSpan := fun ts => do
  let (y', rest) ← yearIfAny ts
  let (stop, rest) ← month rest
  match y, y' with
  | some y, some y' =>
    if y' = CalendarSpan.stopYear y (stop < start) then
      return (.months (some y) start stop, rest)
    else fail .monthsWithinYear ts
  | none, some _ => fail .month ts
  | _, none => return (.months y start stop, rest)

def monthsFrom (y : Option Int) (start : Nat) : Reader CalendarSpan
  | .mark .dash :: ts =>
    if startsCalendarSpan ts then monthsTo y start ts
    else .ok (.months y start start, .mark .dash :: ts)
  | ts => .ok (.months y start start, ts)

def calendarSpan : Reader CalendarSpan := fun ts => do
  let (y, ts) ← yearIfAny ts
  let (m, ts) ← month ts
  if startsDay ts then
    let (d, ts) ← day m ts
    daysFrom ⟨⟨m, d⟩, y⟩ ts
  else monthsFrom y m ts

/-! ## Weeks -/

def week : Reader Nat :=
  one .week fun
    | .number value _ => if 1 ≤ value ∧ value ≤ 53 then some value else none
    | _ => none

def weekSpan : Reader WeekSpan := fun ts => do
  let (start, ts) ← week ts
  match ts with
  | .mark .dash :: ts =>
    let (stop, ts) ← week ts
    let (step, ts) ← step ts
    return (⟨start, stop, step⟩, ts)
  | _ => return (⟨start, start, 1⟩, ts)

def weeks : Reader (List WeekSpan)
  | .keyword .week :: ts => items weekSpan startsNumber ts
  | ts => .ok ([], ts)

/-! ## Weekdays and holidays -/

def weekday : Reader Weekday :=
  one .weekday fun
    | .weekday w => some w
    | _ => none

def occurrenceNumber : Reader Nat :=
  one .occurrence fun
    | .number value _ => if 1 ≤ value ∧ value ≤ 5 then some value else none
    | _ => none

def occurrenceEntry : Reader Occurrences
  | .mark .dash :: ts => do
    let (n, rest) ← occurrenceNumber ts
    return (.ofNumber (-n), rest)
  | ts => do
    let (first, rest) ← occurrenceNumber ts
    match rest with
    | .mark .dash :: ts =>
      let (last, rest) ← occurrenceNumber ts
      if last < first then fail .occurrencesInOrder ts
      else return (.range first last, rest)
    | _ => return (.ofNumber first, rest)

inductive DayEntry where
  | weekdays (days : Weekdays)
  | occurrences (day : Weekday) (counts : Occurrences)
  | holiday (kind : Holiday)
deriving BEq, DecidableEq, Repr

namespace DayEntry

def isHoliday : DayEntry → Bool
  | .holiday _ => true
  | _ => false

def addTo (s : DaySelector) : DayEntry → DaySelector
  | .weekdays days => { s with weekdays := s.weekdays ∪ days }
  | .occurrences day counts => { s with occurrences := s.occurrences ++ [(day, counts)] }
  | .holiday kind => { s with holidays := s.holidays ++ [kind] }

def select (join : DayJoin) (entries : List DayEntry) : DaySelector :=
  entries.foldl addTo { join }

end DayEntry

/-- In brackets every comma goes on with the list. -/
def weekdayEntry : Reader DayEntry := fun ts => do
  let (first, ts) ← weekday ts
  match ts with
  | .mark .leftBracket :: ts =>
    let (entries, ts) ← items occurrenceEntry (fun _ => true) ts
    let ((), ts) ← mark .rightBracket .rightBracket ts
    return (.occurrences first (entries.foldl (· ∪ ·) ∅), ts)
  | .mark .dash :: ts =>
    let (last, ts) ← weekday ts
    return (.weekdays (.range first last), ts)
  | _ => return (.weekdays (.ofDay first), ts)

def dayEntry : Reader DayEntry
  | .keyword (.holiday kind) :: ts => .ok (.holiday kind, ts)
  | .weekday w :: ts => weekdayEntry (.weekday w :: ts)
  | ts => fail .weekdayOrHoliday ts

/-- Weekdays right after a list of nothing but holidays have to hold together with them. -/
def daySelector : Reader DaySelector := fun ts => do
  let (entries, rest) ← items dayEntry startsDayEntry ts
  if entries.all DayEntry.isHoliday && startsWeekday rest then
    let (more, rest) ← items weekdayEntry startsWeekday rest
    return (DayEntry.select .both (entries ++ more), rest)
  else return (DayEntry.select .either entries, rest)

def optionalDaySelector : Reader DaySelector := fun ts =>
  if startsDayEntry ts then daySelector ts else .ok ({}, ts)

end OpeningTimes.Grammar
