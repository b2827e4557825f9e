import OpeningTimes.Expression.Rule

/-!
# Layers of a day

A layer is a list of blocks in order, in minutes from the midnight that its day starts with. Where
it has no block the place is plainly closed. Putting a block on a layer leaves of the others what
lies before and after it, and all of them in the order of their starts.
-/

namespace OpeningTimes

/-- What holds at some instant. Two instants between which nothing changes have the same status. -/
structure Status where
  state : State
  openEnd : Bool
  comment : Option String
deriving BEq, ReflBEq, LawfulBEq, DecidableEq, Repr

namespace Status

def closed : Status := ⟨.closed, false, none⟩

/-- Closed with nothing to say about it. -/
def isGap (s : Status) : Bool := s.state == .closed && s.comment.isNone

end Status

/-- The minutes from the start up to, and without, the stop. -/
structure Block where
  start : Nat
  stop : Nat
  status : Status
deriving BEq, DecidableEq, Repr

namespace Block

def Contains (s : Block) (minute : Nat) : Prop := s.start ≤ minute ∧ minute < s.stop

instance (s : Block) (minute : Nat) : Decidable (s.Contains minute) :=
  inferInstanceAs (Decidable (_ ∧ _))

def before? (minute : Nat) (s : Block) : Option Block :=
  if s.start < minute then some { s with stop := min s.stop minute } else none

def after? (minute : Nat) (s : Block) : Option Block :=
  if minute < s.stop then some { s with start := max s.start minute } else none

/-- What a block leaves of another one, which may be all of it or a part on either side. -/
def cutFrom (s b : Block) : List Block :=
  if b.stop ≤ s.start ∨ s.stop ≤ b.start then [b]
  else (if b.start < s.start then [{ b with stop := s.start }] else []) ++
    (if s.stop < b.stop then [{ b with start := s.stop }] else [])

/-- Put in front of the first block of a list that starts no earlier. -/
def insertInto (s : Block) : List Block → List Block
  | [] => [s]
  | b :: bs => if s.start ≤ b.start then s :: b :: bs else b :: s.insertInto bs

def earlier (minutes : Nat) (s : Block) : Block :=
  { s with start := s.start - minutes, stop := s.stop - minutes }

/-- Put in front of a list, as one with its first block where nothing changes between them. -/
def consJoined (s : Block) : List Block → List Block
  | [] => [s]
  | t :: ts => if s.stop = t.start ∧ s.status = t.status then { s with stop := t.stop } :: ts
    else s :: t :: ts

end Block

abbrev Layer := List Block

namespace Layer

/-- What is left of the blocks of a layer outside of another block, which comes last unless it has
nothing to say. -/
def cut (layer : Layer) (s : Block) : List Block :=
  layer.flatMap s.cutFrom ++ if s.status.isGap then [] else [s]

/-- Blocks in the order of their starts. Those with the same start keep their order. -/
def inOrder (blocks : List Block) : Layer :=
  blocks.foldr Block.insertInto []

def put (layer : Layer) (s : Block) : Layer :=
  inOrder (layer.cut s)

def putAll (layer : Layer) (blocks : List Block) : Layer :=
  blocks.foldl put layer

def withinDay (layer : Layer) : Layer :=
  layer.filterMap (·.before? 1440)

/-- The part within the day after, counted from the midnight between them. -/
def overflow (layer : Layer) : Layer :=
  (layer.filterMap (·.after? 1440)).map (·.earlier 1440)

/-- The blocks with the closed ones between them, from some minute to the end of the day. -/
def closeGaps (minute : Nat) : Layer → List Block
  | [] => if minute < 1440 then [⟨minute, 1440, .closed⟩] else []
  | s :: rest =>
    if minute < s.start then ⟨minute, s.start, .closed⟩ :: s :: closeGaps s.stop rest
    else s :: closeGaps s.stop rest

/-- The whole day as blocks of which no two neighbours have the same status. -/
def cover (layer : Layer) : List Block :=
  (closeGaps 0 layer).foldr Block.consJoined []

end Layer

/-- The blocks that a rule puts on the layer of a day it covers. -/
def Rule.blocks (r : Rule) (c : Context) : List Block :=
  (r.spans c).map fun s => ⟨s.start, s.stop, ⟨r.state, s.openEnd, r.comment⟩⟩

end OpeningTimes
