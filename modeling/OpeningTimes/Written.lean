import OpeningTimes.Hours

/-!
# Questions in writing

The same questions with the expression and the instants given as text. The expression is read first,
then the instants in their order, and the first error is the answer.
-/

namespace OpeningTimes

inductive QueryError where
  | parse (error : ParseError)
  | undecided (search : Undecided)
  | timestamp (raw : String)
deriving DecidableEq, Repr

def QueryError.message : QueryError → String
  | .parse error => error.message
  | .undecided search => search.message
  | .timestamp raw => s!"invalid naive timestamp '{raw}' (expected YYYY-MM-DDTHH:MM:SS)"

namespace Written

def hours (raw : String) : Except QueryError Hours :=
  (Hours.ofText raw).mapError .parse

def instant (raw : String) : Except QueryError Instant :=
  match Instant.ofTimestamp? raw with
  | some t => .ok t
  | none => .error (.timestamp raw)

def check (raw : String) : Except String Unit :=
  match Hours.ofText raw with
  | .ok _ => .ok ()
  | .error e => .error e.message

def state (raw moment : String) : Except QueryError State := do
  let h ← hours raw
  return h.state (← instant moment)

def upcomingChange (raw moment : String) : Except QueryError (Option String) := do
  let h ← hours raw
  let t ← instant moment
  let change ← (h.upcomingChange t).mapError .undecided
  return change.map Instant.timestamp

/-- A stretch with its ends as timestamps. -/
structure WrittenStretch where
  start : String
  stop : String
  status : Status
deriving DecidableEq, Repr

def WrittenStretch.ofStretch (r : Stretch) : WrittenStretch :=
  ⟨r.start.timestamp, r.stop.timestamp, r.status⟩

def openStretches (raw start stop : String) : Except QueryError (List WrittenStretch) := do
  let h ← hours raw
  let start ← instant start
  let stop ← instant stop
  return (h.openStretches start stop).map .ofStretch

end Written

end OpeningTimes
