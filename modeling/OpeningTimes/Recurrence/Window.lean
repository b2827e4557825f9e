import OpeningTimes.Recurrence.Period

/-!
# The dates that selectors name

Years, dated ranges and holidays name dates between which the schedule follows no period. A rule
that is bound to dates has a first and a last day on which it can cover anything.
-/

namespace OpeningTimes

/-- A first and a last date; none where there is no bound on that side. -/
structure Reach where
  first : Option Date := none
  last : Option Date := none
deriving DecidableEq, Repr

def YearSpan.reach (r : YearSpan) : Reach :=
  ⟨Date.newYear? r.start, r.stop.bind Date.newYearsEve?⟩

def CalendarSpan.reach (r : CalendarSpan) : Reach :=
  match r.bounds? with
  | some b => ⟨some b.start, b.stop.bind Date.pred?⟩
  | none => {}

namespace Reach

/-- The reach of a list of selectors of which one has to cover a date. No selector bounds nothing,
and one without a first date leaves both sides open. -/
def ofAny (reaches : List Reach) : Reach :=
  match reaches.mapM Reach.first with
  | none => {}
  | some firsts => ⟨firsts.min?, (reaches.mapM Reach.last).bind List.max?⟩

/-- The reach where two selectors have to cover a date. -/
def meet (a b : Reach) : Reach :=
  ⟨a.first.merge max b.first, a.last.merge min b.last⟩

def lastsTo (r : Reach) (d : Date) : Bool := r.last.all (d ≤ ·)

def startsBy (r : Reach) (d : Date) : Bool := r.first.all (· ≤ d)

end Reach

namespace Rule

def reach (r : Rule) : Reach :=
  (Reach.ofAny (r.years.map YearSpan.reach)).meet (Reach.ofAny (r.calendar.map CalendarSpan.reach))

/-- The dates at which selectors of the rule begin or end, with the first and last holidays. -/
def namedDates (r : Rule) (c : Context) : List Date :=
  let ends (reach : Reach) := reach.first.toList ++ reach.last.toList
  r.years.flatMap (fun range => ends range.reach) ++
    r.calendar.flatMap (fun range => ends range.reach) ++
    r.days.holidays.flatMap fun kind =>
      (c.holidays kind).first?.toList ++ (c.holidays kind).last?.toList

end Rule

end OpeningTimes
