import OpeningTimes.Expression.Selector.Days
import OpeningTimes.Expression.Selector.Spans
import OpeningTimes.Expression.Selector.Times

/-!
# Rules

A rule says what holds on the days that all of its selectors cover, during its spans of time. An
expression is a list of rules, and each says how it goes with those before it.
-/

namespace OpeningTimes

inductive Layering where
  /-- Takes the place of all that was said before about a day. -/
  | replace
  /-- Goes on top of what was said before. -/
  | add
  /-- Holds on the days that no rule before it covers. -/
  | fallback
deriving BEq, ReflBEq, LawfulBEq, DecidableEq, Repr

structure Rule where
  years : List YearSpan
  calendar : List CalendarSpan
  weeks : List WeekSpan
  days : DaySelector
  /-- No span means the whole day. -/
  times : List TimeRange
  state : State
  comment : Option String
  layering : Layering
deriving BEq, DecidableEq, Repr

namespace Rule

/-- A list of selectors of one kind; the empty one covers everything. -/
def anyCovers (selectors : List α) (covers : α → Bool) : Bool :=
  selectors.isEmpty || selectors.any covers

def covers (r : Rule) (c : Context) (d : Date) : Bool :=
  anyCovers r.years (·.covers d.year) && anyCovers r.calendar (·.covers d) &&
    anyCovers r.weeks (·.covers d) && r.days.covers c d

def spans (r : Rule) (c : Context) : List MinuteSpan :=
  if r.times.isEmpty then [.wholeDay] else r.times.map (·.minutes c)

def selectsDates (r : Rule) : Bool :=
  !(r.years.isEmpty && r.calendar.isEmpty && r.weeks.isEmpty && r.days.isEmpty)

end Rule

end OpeningTimes
