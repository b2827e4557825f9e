import OpeningTimes.Expression.Context

/-!
# Spans of time within a day

Times are minutes after the midnight that a day starts with and may go on to 48:00. A span that ends
at or before its start ends on the next day.
-/

namespace OpeningTimes

inductive TimePoint where
  | fixed (minute : Nat)
  /-- Some minutes after the event, or before it where the number is negative. -/
  | solar (event : SunEvent) (offset : Int)
deriving BEq, DecidableEq, Repr

/-- A time of the sun stays within its day. -/
def TimePoint.minute (c : Context) : TimePoint → Nat
  | .fixed minute => minute
  | .solar event offset => (max 0 (min 1440 ((c.solar.minute event).val + offset))).toNat

structure TimeRange where
  start : TimePoint
  stop : Option TimePoint
  openEnd : Bool
deriving BEq, DecidableEq, Repr

/-- The minutes from the start up to, and without, the stop. -/
structure MinuteSpan where
  start : Nat
  stop : Nat
  openEnd : Bool
deriving BEq, DecidableEq, Repr

namespace MinuteSpan

def wholeDay : MinuteSpan := ⟨0, 1440, false⟩

end MinuteSpan

/-- A span without an end lasts until the next midnight. -/
def TimeRange.minutes (s : TimeRange) (c : Context) : MinuteSpan :=
  let start := s.start.minute c
  let stop := match s.stop with
    | some stop => stop.minute c
    | none => if start < 1440 then 1440 else 2880
  let stop := if stop ≤ start then stop + 1440 else stop
  ⟨start, min stop 2880, s.openEnd⟩

end OpeningTimes
