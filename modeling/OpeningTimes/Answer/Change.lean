import OpeningTimes.Recurrence.Limits
import OpeningTimes.Schedule.Memory
import OpeningTimes.Text.Timestamp

/-!
# The next change

A search ends with the next change, with the proof that there is none, or undecided after the years
that the context allows.
-/

namespace OpeningTimes

/-- No change was found in the years after an instant, and there may be one later. -/
structure Undecided where
  start : Instant
  years : Nat
deriving DecidableEq, Repr

def Undecided.message (u : Undecided) : String :=
  let start := u.start.text ' '
  s!"no state change found within {u.years} years after {start}"

structure Search where
  result : Except Undecided (Option Instant)
  /-- How many layers had to be built. -/
  built : Nat

namespace Schedule

def recallUpcomingChange (s : Schedule) (t : Instant) :
    StateM Memory (Except Undecided (Option Instant)) := do
  let limits := s.limits t.date
  let status ← s.recallStatus t
  match ← s.recallChangeAfter t status limits.last with
  | some change => return .ok (some change)
  | none =>
    if limits.proven then return .ok none
    else return .error ⟨t, s.context.yearLimit⟩

def search (s : Schedule) (t : Instant) : Search :=
  let (result, memory) := (s.recallUpcomingChange t).run {}
  ⟨result, memory.built⟩

def upcomingChange (s : Schedule) (t : Instant) : Except Undecided (Option Instant) :=
  (s.search t).result

end Schedule

end OpeningTimes
