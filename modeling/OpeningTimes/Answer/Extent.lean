import OpeningTimes.Recurrence.Limits
import OpeningTimes.Schedule.Memory

/-!
# The extent of a status

The extent around an instant is the time during which its status lasts. It is open on a side where
the search finds no change.
-/

namespace OpeningTimes

structure Extent where
  start : Option Instant
  stop : Option Instant
  status : Status
deriving DecidableEq, Repr

def Extent.contains (e : Extent) (t : Instant) : Bool :=
  e.start.all (· ≤ t) && e.stop.all (t < ·)

/-- What holds at an instant, and for how long unless the place is closed. -/
structure Finding where
  status : Status
  extent : Option Extent
deriving DecidableEq, Repr

def Finding.isOpen (f : Finding) : Bool := f.status.state == .opened

def Finding.openEnd (f : Finding) : Bool := f.extent.any (·.status.openEnd)

namespace Schedule

def recallExtentAt (s : Schedule) (t : Instant) : StateM Memory (Option Extent) := do
  let status ← s.recallStatus t
  if status.state = .closed then return none
  let limits := s.limits t.date
  let start ← s.recallChangeBefore t status limits.first
  let stop ← s.recallChangeAfter t status limits.last
  return some ⟨start, stop, status⟩

def extentAt (s : Schedule) (t : Instant) : Option Extent :=
  ((s.recallExtentAt t).run {}).1

def findingAt (s : Schedule) (t : Instant) : Finding :=
  ⟨s.status t, s.extentAt t⟩

end Schedule

end OpeningTimes
