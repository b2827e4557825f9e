import OpeningTimes.Schedule.Day

/-!
# Changes of status

The nearest change after or before an instant is found day by day. The number of days to look at
bounds the search.
-/

namespace OpeningTimes

/-- Days from one date through another, none where the second one is earlier. -/
def Date.daysThrough (start stop : Date) : Nat :=
  (stop.number - start.number + 1).toNat

/-- The first of some stretches that goes on after an instant with another status. -/
def firstOther? (t : Instant) (status : Status) (stretches : List Stretch) : Option Stretch :=
  stretches.find? fun r => t < r.stop && r.status != status

/-- The last of some stretches that starts by an instant with another status. -/
def lastOther? (t : Instant) (status : Status) (stretches : List Stretch) : Option Stretch :=
  stretches.reverse.find? fun r => r.start ≤ t && r.status != status

namespace Schedule

def changeFrom (s : Schedule) (t : Instant) (status : Status) : (days : Nat) → Date → Option Instant
  | 0, _ => none
  | days + 1, d =>
    match firstOther? t status (s.stretches d) with
    | some r => some r.start
    | none =>
      match d.succ? with
      | some next => s.changeFrom t status days next
      | none => none

/-- The first instant after the given one with another status, on days through the last one
given. -/
def changeAfter (s : Schedule) (t : Instant) (status : Status) (last : Date) : Option Instant :=
  s.changeFrom t status (t.date.daysThrough last) t.date

def changeDownFrom (s : Schedule) (t : Instant) (status : Status) :
    (days : Nat) → Date → Option Instant
  | 0, _ => none
  | days + 1, d =>
    match lastOther? t status (s.stretches d) with
    | some r => some r.stop
    | none =>
      match d.pred? with
      | some previous => s.changeDownFrom t status days previous
      | none => none

/-- Where the status of the given instant begins, on days down to the first one given. -/
def changeBefore (s : Schedule) (t : Instant) (status : Status) (first : Date) : Option Instant :=
  s.changeDownFrom t status (first.daysThrough t.date) t.date

end Schedule

end OpeningTimes
