import OpeningTimes.Answer.Change
import OpeningTimes.Answer.Extent
import OpeningTimes.Answer.Week
import OpeningTimes.Expression.Parse

/-!
# Opening hours

An expression with its rules and the context that they are read in. All questions about a place are
asked here.
-/

namespace OpeningTimes

structure Hours where
  raw : String
  schedule : Schedule
deriving DecidableEq

namespace Hours

def ofText (raw : String) : Except ParseError Hours := do
  return ⟨raw, ⟨← Rule.ofText raw, {}⟩⟩

def withContext (h : Hours) (c : Context) : Hours :=
  { h with schedule := { h.schedule with context := c } }

def rules (h : Hours) : List Rule := h.schedule.rules

def context (h : Hours) : Context := h.schedule.context

def state (h : Hours) (t : Instant) : State := (h.schedule.status t).state

def isOpen (h : Hours) (t : Instant) : Bool := h.state t == .opened

def findingAt (h : Hours) (t : Instant) : Finding := h.schedule.findingAt t

def extentAt (h : Hours) (t : Instant) : Option Extent := h.schedule.extentAt t

def upcomingChange (h : Hours) (t : Instant) : Except Undecided (Option Instant) :=
  h.schedule.upcomingChange t

def search (h : Hours) (t : Instant) : Search := h.schedule.search t

/-- Open at the instant and for all time after. -/
def staysOpen (h : Hours) (t : Instant) : Bool :=
  h.isOpen t && match h.upcomingChange t with
    | .ok none => true
    | _ => false

def openStretches (h : Hours) (start stop : Instant) : List Stretch :=
  h.schedule.openStretches start stop

def openStretches? (h : Hours) (start stop : Instant) : Option (List Stretch) :=
  h.schedule.openStretches? start stop

def opensOn (h : Hours) (d : Date) : Bool := h.schedule.opensOn d

def stretchesOn (h : Hours) (d : Date) (whole : Bool) : List Stretch :=
  h.schedule.stretchesOn d whole

def week (h : Hours) (d : Date) : List DayView := h.schedule.week d

end Hours

end OpeningTimes
