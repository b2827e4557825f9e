import OpeningTimes.Schedule.Layer

/-!
# The schedule of a day

The rules that cover a date build its layer in their order. The layer may go on into the day after,
on which it comes before that day's own. So what holds on a day depends on two layers and no more.
-/

namespace OpeningTimes

structure Schedule where
  rules : List Rule
  context : Context
deriving DecidableEq

/-- A status from one instant up to, and without, another. -/
structure Stretch where
  start : Instant
  stop : Instant
  status : Status
deriving DecidableEq, Repr

structure LayerBuild where
  covered : Bool := false
  layer : Layer := []
deriving DecidableEq, Repr

def LayerBuild.add (c : Context) (d : Date) (b : LayerBuild) (r : Rule) : LayerBuild :=
  if (r.layering == .fallback && b.covered) || !r.covers c d then b
  else
    let below := if r.layering = .add then b.layer else []
    ⟨true, below.putAll (r.blocks c)⟩

/-- The blocks of a day, given the layer of the day before and its own. -/
def Layer.day (previous own : Layer) : List Block :=
  (own.withinDay.putAll previous.overflow).cover

def Block.onDate (d : Date) (s : Block) : Stretch :=
  ⟨.atMinute d s.start, .atMinute d s.stop, s.status⟩

/-- The status of the block that holds a second of the day. -/
def statusOfSecond (second : Nat) (day : List Block) : Status :=
  match day.find? fun s => s.start * 60 ≤ second && second < s.stop * 60 with
  | some s => s.status
  | none => .closed

namespace Schedule

def layer (s : Schedule) (d : Date) : Layer :=
  (s.rules.foldl (LayerBuild.add s.context d) {}).layer

/-- Nothing comes before the first date. -/
def layerBefore (s : Schedule) (d : Date) : Layer :=
  match d.pred? with
  | some previous => s.layer previous
  | none => []

def day (s : Schedule) (d : Date) : List Block :=
  Layer.day (s.layerBefore d) (s.layer d)

def stretches (s : Schedule) (d : Date) : List Stretch :=
  (s.day d).map (·.onDate d)

/-- A leap second counts as the second before it. -/
def status (s : Schedule) (t : Instant) : Status :=
  statusOfSecond t.time.second (s.day t.date)

end Schedule

end OpeningTimes
