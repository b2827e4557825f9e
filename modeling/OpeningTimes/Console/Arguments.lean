import OpeningTimes.Expression.Context
import OpeningTimes.Text.Loose
import OpeningTimes.Text.Timestamp

/-!
# Command line arguments

A command line names a task and the expression that it is about. Options that hold for every task
may stand before the task or after it. One given after the task wins over the same one before it,
except that colour stays off once it has been turned off on either side.
-/

namespace OpeningTimes.Console

inductive TaskName where
  | validate | state | next | intervals | week
deriving BEq, DecidableEq, Repr

def TaskName.ofText? : String → Option TaskName
  | "validate" => some .validate
  | "state" => some .state
  | "next" => some .next
  | "intervals" => some .intervals
  | "week" => some .week
  | _ => none

def TaskName.takesMoment : TaskName → Bool
  | .state | .next | .week => true
  | .validate | .intervals => false

inductive Switch where
  | color | noColor | verbose | version | help
deriving BEq, DecidableEq, Repr

/-- An option that takes a value. -/
inductive Setting where
  | publicHoliday | schoolHoliday | yearLimit | moment | start | stop
deriving BEq, DecidableEq, Repr

/-- Why there is nothing to do for a command line. -/
inductive Refusal where
  | misuse | help | version
deriving BEq, DecidableEq, Repr

/-- Where an argument stands: before the task or after it. -/
abbrev Place := Option TaskName

def Switch.ofLong? (place : Place) : String → Option Switch
  | "color" => some .color
  | "no-color" => some .noColor
  | "help" => some .help
  | "version" => if place.isNone then some .version else none
  | "verbose" => if place = some .next then some .verbose else none
  | _ => none

def Switch.ofLetter? (place : Place) : Char → Option Switch
  | 'h' => some .help
  | 'V' => if place.isNone then some .version else none
  | 'v' => if place = some .next then some .verbose else none
  | _ => none

def Setting.ofLong? (place : Place) : String → Option Setting
  | "public-holiday" => some .publicHoliday
  | "school-holiday" => some .schoolHoliday
  | "max-search-years" => some .yearLimit
  | "at" => if place.any TaskName.takesMoment then some .moment else none
  | "from" => if place = some .intervals then some .start else none
  | "to" => if place = some .intervals then some .stop else none
  | _ => none

inductive Shape where
  | separator
  | long (name : String) (value : Option String)
  | letters (cs : List Char)
  | plain (text : String)
deriving BEq, DecidableEq, Repr

def Shape.ofText (text : String) : Shape :=
  match text.toList with
  | ['-', '-'] => .separator
  | '-' :: '-' :: cs =>
    let value := match cs.dropWhile (· ≠ '=') with
      | [] => none
      | _ :: value => some (String.ofList value)
    .long (String.ofList (cs.takeWhile (· ≠ '='))) value
  | '-' :: c :: cs => .letters (c :: cs)
  | _ => .plain text

/-- What was given on one side of the task. -/
structure Given where
  publicHolidays : Option (List Date) := none
  schoolHolidays : Option (List Date) := none
  yearLimit : Option Nat := none
  color : Bool := false
  noColor : Bool := false
  verbose : Bool := false
  moment : Option Instant := none
  start : Option Instant := none
  stop : Option Instant := none
  expression : Option String := none
deriving DecidableEq

def once (old : Option α) (value : Option α) : Except Refusal (Option α) :=
  match old, value with
  | none, some x => .ok (some x)
  | _, _ => .error .misuse

def dates? (value : String) : Option (List Date) :=
  (value.splitOn ",").mapM fun part => Text.looseDate? part.toList

def years? (value : String) : Option Nat :=
  Text.boundedNumber? 4294967295 value.toList

/-- The answer to a call for help, given the words after it. They may name one task, or help
itself. -/
def helpAbout : List String → Refusal
  | [] => .help
  | [topic] => if topic = "help" || (TaskName.ofText? topic).isSome then .help else .misuse
  | _ => .misuse

namespace Given

/-- Colour on and colour off take each other back. A switch may not be given twice. -/
def turn (g : Given) : Switch → Except Refusal Given
  | .color => if g.color then .error .misuse else .ok { g with color := true, noColor := false }
  | .noColor => if g.noColor then .error .misuse else .ok { g with color := false, noColor := true }
  | .verbose => if g.verbose then .error .misuse else .ok { g with verbose := true }
  | .version => .error .version
  | .help => .error .help

/-- Dates with commas between them, after those given before. -/
def addDates (old : Option (List Date)) (value : String) : Except Refusal (Option (List Date)) :=
  match dates? value with
  | some dates => .ok (some (old.getD [] ++ dates))
  | none => .error .misuse

def set (g : Given) (setting : Setting) (value : String) : Except Refusal Given := do
  match setting with
  | .publicHoliday => return { g with publicHolidays := ← addDates g.publicHolidays value }
  | .schoolHoliday => return { g with schoolHolidays := ← addDates g.schoolHolidays value }
  | .yearLimit => return { g with yearLimit := ← once g.yearLimit (years? value) }
  | .moment => return { g with moment := ← once g.moment (Instant.ofTimestamp? value) }
  | .start => return { g with start := ← once g.start (Instant.ofTimestamp? value) }
  | .stop => return { g with stop := ← once g.stop (Instant.ofTimestamp? value) }

def addPlain (g : Given) (text : String) : Except Refusal Given := do
  return { g with expression := ← once g.expression (some text) }

def turnLetters (g : Given) (place : Place) (cs : List Char) : Except Refusal Given :=
  cs.foldlM (fun g c =>
    match Switch.ofLetter? place c with
    | some switch => g.turn switch
    | none => .error .misuse) g

/-- Take the arguments of one side up to the name of the task, with what comes after it. Behind the
separator nothing is an option or a task. -/
def read (place : Place) (g : Given) :
    List String → Except Refusal (Given × Option (TaskName × List String))
  | [] => .ok (g, none)
  | arg :: rest =>
    match Shape.ofText arg with
    | .separator => do
      let g ← rest.foldlM (fun g text => if place.isSome then g.addPlain text else .error .misuse) g
      return (g, none)
    | .letters cs => do (← g.turnLetters place cs).read place rest
    | .plain text =>
      if place.isSome then do (← g.addPlain text).read place rest
      else
        match TaskName.ofText? text with
        | some task => .ok (g, some (task, rest))
        | none => .error (if text = "help" then helpAbout rest else .misuse)
    | .long name value =>
      match Switch.ofLong? place name, Setting.ofLong? place name, value with
      | some switch, _, none => do (← g.turn switch).read place rest
      | none, some setting, some value => do (← g.set setting value).read place rest
      | none, some setting, none =>
        match rest with
        | value :: rest =>
          match Shape.ofText value with
          | .plain value => do (← g.set setting value).read place rest
          | _ => .error .misuse
        | [] => .error .misuse
      | _, _, _ => .error .misuse

end Given

inductive Task where
  | validate
  | state (moment : Option Instant)
  | next (moment : Option Instant) (verbose : Bool)
  | intervals (start stop : Instant)
  | week (moment : Option Instant)
deriving DecidableEq, Repr

structure Request where
  task : Task
  expression : String
  context : Context
  color : Bool
  noColor : Bool
deriving DecidableEq

def Given.task? (g : Given) : TaskName → Option Task
  | .validate => some .validate
  | .state => some (.state g.moment)
  | .next => some (.next g.moment g.verbose)
  | .intervals => do return .intervals (← g.start) (← g.stop)
  | .week => some (.week g.moment)

/-- The years of the search: those given last, else those of the environment, which have to be a
number unless both sides of the task give one. -/
def chooseYears (before after : Given) (environment : Option String) : Except Refusal Nat :=
  let given := after.yearLimit.or before.yearLimit
  let usual := (default : Context).yearLimit
  match environment with
  | none => .ok (given.getD usual)
  | some text =>
    match years? text with
    | some years => .ok (given.getD years)
    | none =>
      match before.yearLimit, after.yearLimit with
      | some _, some years => .ok years
      | _, _ => .error .misuse

/-- The request of a command line, given the years that the environment may set. -/
def Request.ofArguments (args : List String) (environment : Option String) :
    Except Refusal Request := do
  match ← Given.read none {} args with
  | (_, none) => throw .misuse
  | (before, some (name, rest)) =>
    let (after, _) ← Given.read (some name) {} rest
    match after.task? name, after.expression with
    | some task, some expression =>
      let yearLimit ← chooseYears before after environment
      let dates (f : Given → Option (List Date)) := ((f after).or (f before)).getD []
      return {
        task, expression
        context := {
          publicHolidays := .ofList (dates Given.publicHolidays)
          schoolHolidays := .ofList (dates Given.schoolHolidays)
          yearLimit }
        color := before.color || after.color
        noColor := before.noColor || after.noColor }
    | _, _ => throw .misuse

end OpeningTimes.Console
