import OpeningTimes.Expression.Grammar.Reading
import OpeningTimes.Expression.Selector.Times

/-!
# Reading spans of time

A time is a clock or an event of the sun, which may be shifted in parentheses. A span starts by
24:00 and ends by 48:00.
-/

namespace OpeningTimes.Grammar

def startsTime : List Lexeme → Bool
  | .clock _ _ :: _ => true
  | .mark .leftParen :: _ => true
  | .keyword (.solar _) :: _ => true
  | _ => false

/-- Minutes of a time up to the full hour given. -/
def clockTime (lastHour : Nat) : Reader Nat :=
  one (.time lastHour) fun
    | .clock hour minute =>
      if minute < 60 ∧ hour * 60 + minute ≤ lastHour * 60 then some (hour * 60 + minute) else none
    | _ => none

def sunEvent : Reader SunEvent :=
  one .sunEvent fun
    | .keyword (.solar event) => some event
    | _ => none

def sign : Reader Int :=
  one .sign fun
    | .mark .plus => some 1
    | .mark .dash => some (-1)
    | _ => none

/-- An event with its shift, after the opening parenthesis. -/
def shiftedEvent : Reader TimePoint := fun ts => do
  let (event, ts) ← sunEvent ts
  let (factor, ts) ← sign ts
  let (minutes, ts) ← clockTime 24 ts
  let ((), ts) ← mark .rightParen .rightParen ts
  return (.solar event (minutes * factor), ts)

def timePoint (lastHour : Nat) : Reader TimePoint
  | .keyword (.solar event) :: ts => .ok (.solar event 0, ts)
  | .mark .leftParen :: ts => shiftedEvent ts
  | ts => (clockTime lastHour ts).map fun (minute, rest) => (.fixed minute, rest)

def timeRange : Reader TimeRange := fun ts => do
  let (start, ts) ← timePoint 24 ts
  match ts with
  | .mark .plus :: ts => return (⟨start, none, true⟩, ts)
  | _ =>
    let ((), ts) ← mark .timeEnd .dash ts
    let (stop, ts) ← timePoint 48 ts
    match ts with
    | .mark .plus :: ts => return (⟨start, some stop, true⟩, ts)
    | _ => return (⟨start, some stop, false⟩, ts)

end OpeningTimes.Grammar
