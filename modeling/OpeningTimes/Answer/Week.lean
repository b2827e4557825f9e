import OpeningTimes.Answer.Range

/-!
# A week at a glance

The days of a week from Monday on, each with the times that start on it. A week at an end of the
calendar has fewer days; the last date is never shown.
-/

namespace OpeningTimes

structure DayView where
  date : Date
  /-- Open if the place opens at all that day, unknown if it only may. -/
  state : State
  times : List (TimeOfDay × TimeOfDay)
deriving DecidableEq, Repr

def Date.monday (d : Date) : Date :=
  (d.shift? (-(d.weekday.index : Int))).getD first

def DayView.stateOf (rs : List Stretch) : State :=
  if rs.any (·.status.state == .opened) then .opened
  else if rs.any (·.status.state == .unknown) then .unknown
  else .closed

namespace Schedule

def dayView (s : Schedule) (d : Date) : DayView :=
  let rs := s.stretchesOn d true
  ⟨d, DayView.stateOf rs, rs.map fun r => (r.start.time, r.stop.time)⟩

def week (s : Schedule) (d : Date) : List DayView :=
  ((d.monday.following 7).filter (·.succ?.isSome)).map s.dayView

end Schedule

end OpeningTimes
