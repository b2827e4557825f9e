import OpeningTimes.Expression.Grammar.Dates
import OpeningTimes.Expression.Grammar.Times

/-!
# Reading rules

A rule has date selectors, spans of time, what holds then and a comment, in this order and each
optional, but not all left out. Rules stand with a semicolon, a comma or a double bar between them.
A semicolon may also end the expression.
-/

namespace OpeningTimes.Grammar

/-- 24/7 stands for no span, which is the whole day. -/
def times : Reader (List TimeRange)
  | .number 24 _ :: .mark .slash :: .number 7 _ :: ts => .ok ([], ts)
  | ts => optionalItems timeRange startsTime ts

def stated : List Lexeme → Option State × List Lexeme
  | .keyword .opened :: ts => (some .opened, ts)
  | .keyword .closed :: ts => (some .closed, ts)
  | .keyword .off :: ts => (some .closed, ts)
  | .keyword .unknown :: ts => (some .unknown, ts)
  | ts => (none, ts)

def comment : List Lexeme → Option String × List Lexeme
  | .comment text :: ts => (some text, ts)
  | ts => (none, ts)

/-- A colon may stand after years, months and weeks. -/
def skipColon : List Lexeme → List Lexeme
  | .mark .colon :: ts => ts
  | ts => ts

/-- A comment alone leaves open what holds. -/
def impliedState (commentAlone : Bool) : State :=
  if commentAlone then .unknown else .opened

def rule (layering : Layering) : Reader Rule := fun start => do
  let (years, ts) ← optionalItems yearSpan startsYear start
  let (calendar, ts) ← optionalItems calendarSpan startsCalendarSpan ts
  let (weeks, ts) ← weeks ts
  let ts := if ts.length < start.length then skipColon ts else ts
  let (days, ts) ← optionalDaySelector ts
  let (times, ts) ← times ts
  let (state, ts) := stated ts
  let (comment, rest) := comment ts
  if rest.length < start.length then
    let commentAlone := comment.isSome && ts.length == start.length
    let state := state.getD (impliedState commentAlone)
    return ({ years, calendar, weeks, days, times, state, comment, layering }, rest)
  else fail .rule start

/-- The rules from one on. The bound is on the number of rules. -/
def rulesUpTo : (bound : Nat) → Layering → List Lexeme → Except Failure (List Rule)
  | 0, _, ts => fail .rule ts
  | bound + 1, layering, ts => do
    let (first, rest) ← rule layering ts
    match rest with
    | [] => return [first]
    | .mark .semicolon :: [] => return [first]
    | .mark .semicolon :: more => return first :: (← rulesUpTo bound .replace more)
    | .mark .comma :: more => return first :: (← rulesUpTo bound .add more)
    | .mark .doubleBar :: more => return first :: (← rulesUpTo bound .fallback more)
    | _ => fail .separator rest

/-- Every rule takes a lexeme. -/
def rules (ts : List Lexeme) : Except Failure (List Rule) :=
  rulesUpTo (ts.length + 1) .replace ts

end OpeningTimes.Grammar
