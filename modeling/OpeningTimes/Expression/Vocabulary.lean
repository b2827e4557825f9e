import OpeningTimes.Calendar.Weekday

/-!
# The words of the language

What a rule can say about a place, the kinds of holidays and the events of the sun, and the keywords
and marks that expressions are written with.
-/

namespace OpeningTimes

/-- What is known of a place at some instant. -/
inductive State where
  | opened | closed | unknown
deriving BEq, ReflBEq, LawfulBEq, DecidableEq, Repr

def State.text : State → String
  | .opened => "open"
  | .closed => "closed"
  | .unknown => "unknown"

inductive Holiday where
  | publicHoliday | schoolHoliday
deriving BEq, DecidableEq, Repr

inductive SunEvent where
  | dawn | sunrise | sunset | dusk
deriving BEq, DecidableEq, Repr

inductive Keyword where
  | off | closed | opened | unknown
  | holiday (kind : Holiday)
  | solar (event : SunEvent)
  | week
deriving BEq, DecidableEq, Repr

inductive Mark where
  | dash | comma | semicolon | colon | slash | doubleBar | plus
  | leftBracket | rightBracket | leftParen | rightParen
deriving BEq, DecidableEq, Repr

/-- What a token says, apart from how and where it is written. -/
inductive Lexeme where
  | weekday (day : Weekday)
  | month (month : Nat)
  | number (value width : Nat)
  | clock (hour minute : Nat)
  | keyword (word : Keyword)
  | mark (mark : Mark)
  | comment (text : String)
deriving BEq, DecidableEq, Repr

namespace Lexeme

/-- The words of the language in lower case. -/
def words : List (String × Lexeme) :=
  [("mo", .weekday .monday), ("mon", .weekday .monday), ("monday", .weekday .monday),
    ("tu", .weekday .tuesday), ("tue", .weekday .tuesday), ("tues", .weekday .tuesday),
    ("tuesday", .weekday .tuesday),
    ("we", .weekday .wednesday), ("wed", .weekday .wednesday), ("wednesday", .weekday .wednesday),
    ("th", .weekday .thursday), ("thu", .weekday .thursday), ("thur", .weekday .thursday),
    ("thurs", .weekday .thursday), ("thursday", .weekday .thursday),
    ("fr", .weekday .friday), ("fri", .weekday .friday), ("friday", .weekday .friday),
    ("sa", .weekday .saturday), ("sat", .weekday .saturday), ("saturday", .weekday .saturday),
    ("su", .weekday .sunday), ("sun", .weekday .sunday), ("sunday", .weekday .sunday),
    ("jan", .month 1), ("january", .month 1), ("feb", .month 2), ("february", .month 2),
    ("mar", .month 3), ("march", .month 3), ("apr", .month 4), ("april", .month 4),
    ("may", .month 5), ("jun", .month 6), ("june", .month 6), ("jul", .month 7),
    ("july", .month 7), ("aug", .month 8), ("august", .month 8), ("sep", .month 9),
    ("sept", .month 9), ("september", .month 9), ("oct", .month 10), ("october", .month 10),
    ("nov", .month 11), ("november", .month 11), ("dec", .month 12), ("december", .month 12),
    ("off", .keyword .off), ("closed", .keyword .closed), ("open", .keyword .opened),
    ("unknown", .keyword .unknown), ("ph", .keyword (.holiday .publicHoliday)),
    ("sh", .keyword (.holiday .schoolHoliday)), ("sunrise", .keyword (.solar .sunrise)),
    ("sunset", .keyword (.solar .sunset)), ("dawn", .keyword (.solar .dawn)),
    ("dusk", .keyword (.solar .dusk)), ("week", .keyword .week)]

/-- Upper and lower case are the same. -/
def ofWord? (letters : List Char) : Option Lexeme :=
  words.lookup (String.ofList (letters.map Char.toLower))

end Lexeme

def Mark.ofChar? : Char → Option Mark
  | '-' => some .dash
  | ',' => some .comma
  | ';' => some .semicolon
  | ':' => some .colon
  | '/' => some .slash
  | '+' => some .plus
  | '[' => some .leftBracket
  | ']' => some .rightBracket
  | '(' => some .leftParen
  | ')' => some .rightParen
  | _ => none

end OpeningTimes
