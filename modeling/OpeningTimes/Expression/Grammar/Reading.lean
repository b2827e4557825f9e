import OpeningTimes.Expression.Vocabulary

/-!
# Reading lexemes

A reader takes what it can from the front of a list of lexemes and returns the rest. It sees neither
how a token is written nor where it stands. A failure says what was wanted and how many lexemes were
left, counting the one that did not fit.
-/

namespace OpeningTimes.Grammar

/-- What may stand at some place of an expression. -/
inductive Expected where
  | rule | separator
  | year | yearsInOrder | step
  | month | day (last : Nat) | datesInOrder | monthsWithinYear
  | week
  | weekday | weekdayOrHoliday | occurrence | occurrencesInOrder | rightBracket
  | time (lastHour : Nat) | sunEvent | sign | rightParen | timeEnd
deriving BEq, DecidableEq, Repr

def Expected.text : Expected → String
  | .rule => "a rule"
  | .separator => "';', ',' or '||'"
  | .year => "a year between 1900 and 9999"
  | .yearsInOrder => "a year range that does not run backwards"
  | .step => "a step of at least 1"
  | .month => "a month name"
  | .day last => s!"a day between 1 and {last}"
  | .datesInOrder => "a date range that does not run backwards"
  | .monthsWithinYear => "a month range spanning at most one year"
  | .week => "a week number between 1 and 53"
  | .weekday => "a weekday"
  | .weekdayOrHoliday => "a weekday or holiday"
  | .occurrence => "an occurrence between 1 and 5"
  | .occurrencesInOrder => "an occurrence range that does not run backwards"
  | .rightBracket => "']'"
  | .time lastHour => s!"a time between 00:00 and {lastHour}:00"
  | .sunEvent => "sunrise, sunset, dawn or dusk"
  | .sign => "'+' or '-'"
  | .rightParen => "')'"
  | .timeEnd => "'-' or '+' after a time"

structure Failure where
  expected : Expected
  left : Nat
deriving BEq, DecidableEq, Repr

abbrev Reader (α : Type) := List Lexeme → Except Failure (α × List Lexeme)

def fail (expected : Expected) (ts : List Lexeme) : Except Failure α :=
  .error ⟨expected, ts.length⟩

def one (expected : Expected) (meaning : Lexeme → Option α) : Reader α
  | [] => fail expected []
  | t :: ts =>
    match meaning t with
    | some x => .ok (x, ts)
    | none => fail expected (t :: ts)

def mark (expected : Expected) (wanted : Mark) : Reader Unit :=
  one expected fun
    | .mark m => if m = wanted then some () else none
    | _ => none

/-- The items after the first one, each with a comma before it. A comma that no item follows belongs
to what comes after the list. The bound is on the number of items. -/
def moreItems (item : Reader α) (starts : List Lexeme → Bool) : (bound : Nat) → Reader (List α)
  | bound + 1, .mark .comma :: ts =>
    if starts ts then do
      let (x, rest) ← item ts
      let (xs, rest) ← moreItems item starts bound rest
      return (x :: xs, rest)
    else .ok ([], .mark .comma :: ts)
  | _, ts => .ok ([], ts)

/-- Items with commas between them, of which there are no more than lexemes. -/
def items (item : Reader α) (starts : List Lexeme → Bool) : Reader (List α) := fun ts => do
  let (x, rest) ← item ts
  let (xs, rest) ← moreItems item starts rest.length rest
  return (x :: xs, rest)

def optionalItems (item : Reader α) (starts : List Lexeme → Bool) : Reader (List α) :=
  fun ts => if starts ts then items item starts ts else .ok ([], ts)

end OpeningTimes.Grammar
