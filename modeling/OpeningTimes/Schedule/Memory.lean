import OpeningTimes.Schedule.Changes

/-!
# Keeping recent layers

A day needs two layers and its neighbours need them again. A search therefore keeps the last three
layers it has built, the newest first, and counts how many it had to build. What it finds is what
the schedule itself says.
-/

namespace OpeningTimes

structure Memory where
  recent : List (Date × Layer) := []
  built : Nat := 0
deriving DecidableEq, Repr

namespace Memory

def capacity : Nat := 3

/-- Every layer kept is the one of its date. -/
def Agrees (m : Memory) (s : Schedule) : Prop :=
  ∀ entry ∈ m.recent, entry.2 = s.layer entry.1

end Memory

namespace Schedule

def recallLayer (s : Schedule) (d : Date) : StateM Memory Layer := fun m =>
  match m.recent.lookup d with
  | some layer => (layer, m)
  | none =>
    let layer := s.layer d
    (layer, ⟨((d, layer) :: m.recent).take Memory.capacity, m.built + 1⟩)

def recallLayerBefore (s : Schedule) (d : Date) : StateM Memory Layer :=
  match d.pred? with
  | some previous => s.recallLayer previous
  | none => pure []

def recallDay (s : Schedule) (d : Date) : StateM Memory (List Block) := do
  let previous ← s.recallLayerBefore d
  let own ← s.recallLayer d
  return Layer.day previous own

def recallStretches (s : Schedule) (d : Date) : StateM Memory (List Stretch) := do
  return (← s.recallDay d).map (·.onDate d)

def recallStatus (s : Schedule) (t : Instant) : StateM Memory Status := do
  return statusOfSecond t.time.second (← s.recallDay t.date)

def recallChangeFrom (s : Schedule) (t : Instant) (status : Status) :
    (days : Nat) → Date → StateM Memory (Option Instant)
  | 0, _ => pure none
  | days + 1, d => do
    match firstOther? t status (← s.recallStretches d) with
    | some r => return some r.start
    | none =>
      match d.succ? with
      | some next => s.recallChangeFrom t status days next
      | none => return none

def recallChangeAfter (s : Schedule) (t : Instant) (status : Status) (last : Date) :
    StateM Memory (Option Instant) :=
  s.recallChangeFrom t status (t.date.daysThrough last) t.date

def recallChangeDownFrom (s : Schedule) (t : Instant) (status : Status) :
    (days : Nat) → Date → StateM Memory (Option Instant)
  | 0, _ => pure none
  | days + 1, d => do
    match lastOther? t status (← s.recallStretches d) with
    | some r => return some r.stop
    | none =>
      match d.pred? with
      | some previous => s.recallChangeDownFrom t status days previous
      | none => return none

def recallChangeBefore (s : Schedule) (t : Instant) (status : Status) (first : Date) :
    StateM Memory (Option Instant) :=
  s.recallChangeDownFrom t status (first.daysThrough t.date) t.date

end Schedule

end OpeningTimes
