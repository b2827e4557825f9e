import OpeningTimes.Calendar.Date
import OpeningTimes.Text.Blank
import OpeningTimes.Text.Digits

/-!
# Dates and numbers as people type them

Blanks may stand around the parts of a date, and leading zeros may be left out. A year of more than
four digits needs a sign.
-/

namespace OpeningTimes

namespace Text

def skipBlanks (cs : List Char) : List Char := cs.dropWhile isBlank

/-- A number of at least one digit and at most so many. -/
def looseNumber? (width : Nat) (cs : List Char) : Option (Nat × List Char) :=
  let digits := (cs.take width).takeWhile Char.isDigit
  if digits.isEmpty then none else some (digitsValue digits, cs.drop digits.length)

def looseYear? : List Char → Option (Int × List Char)
  | '-' :: cs => (looseNumber? cs.length cs).map fun (n, rest) => (-n, rest)
  | '+' :: cs => (looseNumber? cs.length cs).map fun (n, rest) => (n, rest)
  | cs => (looseNumber? 4 cs).map fun (n, rest) => (n, rest)

/-- What follows a character that a text has to start with. -/
def after? (c : Char) : List Char → Option (List Char)
  | d :: cs => if d = c then some cs else none
  | [] => none

def looseDate? (cs : List Char) : Option Date := do
  let (year, cs) ← looseYear? (skipBlanks cs)
  let cs ← after? '-' (skipBlanks cs)
  let (month, cs) ← looseNumber? 2 (skipBlanks cs)
  let cs ← after? '-' (skipBlanks cs)
  let (day, cs) ← looseNumber? 2 (skipBlanks cs)
  if (skipBlanks cs).isEmpty then Date.ofYearMonthDay? year month day else none

/-- A number with or without a sign, if it lies between zero and the greatest given. -/
def boundedNumber? (greatest : Nat) (cs : List Char) : Option Nat :=
  let (negative, digits) := match cs with
    | '-' :: rest => (true, rest)
    | '+' :: rest => (false, rest)
    | rest => (false, rest)
  match digits, readDigits? digits with
  | _ :: _, some n => if n ≤ greatest ∧ (negative → n = 0) then some n else none
  | _, _ => none

end Text

end OpeningTimes
