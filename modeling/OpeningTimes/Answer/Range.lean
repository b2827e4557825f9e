import OpeningTimes.Schedule.Changes

/-!
# Open times of a range

The stretches of a range in which a place is open or may be, in order. One that goes on over
midnight is a single stretch, and one that goes beyond the range is cut at its ends.
-/

namespace OpeningTimes

/-- So many dates from the given one on, as far as the calendar goes. -/
def Date.following (d : Date) (count : Nat) : List Date :=
  (List.range count).filterMap fun (days : Nat) => d.shift? days

namespace Stretch

/-- Put in front of a list, as one with its first stretch where nothing changes between them. -/
def consJoined (r : Stretch) : List Stretch → List Stretch
  | [] => [r]
  | t :: ts => if r.stop = t.start ∧ r.status = t.status then { r with stop := t.stop } :: ts
    else r :: t :: ts

def clip (start stop : Instant) (r : Stretch) : Stretch :=
  { r with start := max r.start start, stop := min r.stop stop }

def isClosed (r : Stretch) : Bool := r.status.state == .closed

def isUnknown (r : Stretch) : Bool := r.status.state == .unknown

/-- Nanoseconds from the start to the stop. -/
def duration (r : Stretch) : Int := r.stop.nanosecondsSince r.start

def lastsOverADay (r : Stretch) : Bool := 86400000000000 < r.duration

end Stretch

namespace Schedule

/-- The dates that a range touches. The one of its start is always among them. -/
def datesOf (start stop : Instant) : List Date :=
  start.date.following (max 1 (start.date.daysThrough stop.dateOfSecondBefore))

/-- The stretches of some dates in order, without the closed ones. -/
def openStretchesOf (s : Schedule) (dates : List Date) : List Stretch :=
  dates.foldr
    (fun d later => ((s.stretches d).filter (!·.isClosed)).foldr Stretch.consJoined later) []

def openStretches (s : Schedule) (start stop : Instant) : List Stretch :=
  if stop ≤ start then []
  else
    let clipped := (s.openStretchesOf (datesOf start stop)).map (·.clip start stop)
    clipped.filter fun r => r.start < r.stop

/-- The stretches of a range, unless it ends in the first second of the calendar: the last date of a
range is the one a second before its stop, and there is none. -/
def openStretches? (s : Schedule) (start stop : Instant) : Option (List Stretch) :=
  if start < stop ∧ stop.dateOfSecondBefore? = none then none else some (s.openStretches start stop)

/-- Whether the place is open on a date at any time, or may be. -/
def opensOn (s : Schedule) (d : Date) : Bool :=
  !(s.openStretches (.midnight d) (.midnightAfter d 1)).isEmpty

/-- The stretches of a day. Cut at its ends, or else only those that start on the day, with the end
that they have unless they last over a day. -/
def stretchesOn (s : Schedule) (d : Date) (whole : Bool) : List Stretch :=
  let start := Instant.midnight d
  let stop := Instant.midnightAfter d 1
  let around := s.openStretches (.midnightAfter d (-1)) (.midnightAfter d 2)
  let touching := around.filter fun r => start < r.stop && r.start < stop
  if whole then
    let cut := touching.map fun r => if r.lastsOverADay then r.clip start stop else r
    cut.filter fun r => start ≤ r.start && r.start < stop
  else touching.map (·.clip start stop)

end Schedule

end OpeningTimes
