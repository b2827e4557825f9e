import OpeningTimes.Recurrence.Window
import OpeningTimes.Schedule.Changes

/-!
# How far a search has to go

After the last date that the rules name, the schedule follows the period of the rules that are still
alive. A search that has seen a whole period of it, with two days more for what goes over midnight,
has seen all that will ever come. Each search also stops after the years that the context allows.
-/

namespace OpeningTimes

namespace Schedule

def kinds (s : Schedule) : SelectorKinds :=
  SelectorKinds.ofList (s.rules.map Rule.kinds)

/-- The period of all rules, whether or not they are alive. -/
def period (s : Schedule) : Period :=
  Period.ofKinds s.kinds

/-- The first and the last date that the rules name. -/
def window? (s : Schedule) : Option (Date × Date) :=
  let dates := s.rules.flatMap (·.namedDates s.context)
  match dates.min?, dates.max? with
  | some first, some last => some (first, last)
  | _, _ => none

/-- Without rules every day is the same. -/
def periodOf (rules : List Rule) : Period :=
  if rules.isEmpty then .constant else Period.ofKinds (SelectorKinds.ofList (rules.map Rule.kinds))

/-- The period of the rules that can still cover a date on or after the given one. -/
def periodAfter (s : Schedule) (d : Date) : Period :=
  periodOf (s.rules.filter (·.reach.lastsTo d))

/-- The period of the rules that can already cover a date on or before the given one. -/
def periodBefore (s : Schedule) (d : Date) : Period :=
  periodOf (s.rules.filter (·.reach.startsBy d))

/-- Where the schedule is periodic from, at or after a date. -/
def periodicFrom? (s : Schedule) (d : Date) : Option Date :=
  match s.window? with
  | some (_, last) => last.succ?.map (max d)
  | none => some d

def periodicUntil? (s : Schedule) (d : Date) : Option Date :=
  match s.window? with
  | some (first, _) => first.pred?.map (min d)
  | none => some d

/-- A search from a date that finds no change through this day proves that there is none. -/
def proofEnd? (s : Schedule) (d : Date) : Option Date := do
  let base ← s.periodicFrom? d
  let stop ← (s.periodAfter base).after? base
  stop.shift? 2

/-- The same for a search back. -/
def proofStart? (s : Schedule) (d : Date) : Option Date := do
  let base ← s.periodicUntil? d
  let start ← (s.periodBefore base).before? base
  start.shift? (-2)

end Schedule

structure SearchLimits where
  first : Date
  last : Date
  /-- Whether a search through the last day proves that nothing changes later. -/
  proven : Bool
deriving DecidableEq, Repr

def Schedule.limits (s : Schedule) (d : Date) : SearchLimits :=
  let first := match s.proofStart? d with
    | some start => max start (d.yearsEarlier s.context.yearLimit)
    | none => d.yearsEarlier s.context.yearLimit
  let limit := d.yearsLater s.context.yearLimit
  match s.proofEnd? d with
  | some stop => if stop ≤ limit then ⟨first, stop, true⟩ else ⟨first, limit, false⟩
  | none => ⟨first, limit, false⟩

end OpeningTimes
