import OpeningTimes.Console.Arguments
import OpeningTimes.Console.Lines

/-!
# The program

What the program prints and the code that it ends with, for each command line. The time that a
search takes is known only when it is over, so it is left open.
-/

namespace OpeningTimes.Console

structure Outcome where
  code : Nat
  /-- The lines on standard output, given the time that the search took. -/
  output : (elapsed : String) → List String
  errors : List String := []

/-- What the program sees apart from its arguments. -/
structure Surroundings where
  /-- The variable that sets the years of a search. -/
  searchYears : Option String
  now : Instant
  /-- Whether standard output is a terminal. -/
  terminal : Bool
deriving DecidableEq

def Request.colouring (r : Request) (terminal : Bool) : Colouring :=
  ⟨!r.noColor && (r.color || terminal)⟩

def Task.perform (task : Task) (p : Colouring) (h : Hours) (now : Instant) : Outcome :=
  match task with
  | .validate => ⟨0, fun _ => p.valid h, []⟩
  | .state moment => ⟨0, fun _ => p.finding h (moment.getD now), []⟩
  | .next moment verbose =>
    let t := moment.getD now
    let found := h.search t
    let code := match found.result with
      | .ok _ => 0
      | .error _ => 1
    let effort (elapsed : String) := if verbose then p.effort found elapsed else []
    ⟨code, fun elapsed => p.search h t found ++ effort elapsed ++ [""], []⟩
  | .intervals start stop => ⟨0, fun _ => p.stretches h start stop, []⟩
  | .week moment => ⟨0, fun _ => p.week h (moment.getD now).date, []⟩

def Request.perform (r : Request) (s : Surroundings) : Outcome :=
  let p := r.colouring s.terminal
  match Hours.ofText r.expression with
  | .error e => ⟨2, fun _ => [], p.parseError r.expression e⟩
  | .ok h => r.task.perform p (h.withContext r.context) s.now

def versionLine : String := "openhours 0.1.0"

def usageLines : List String :=
  ["Usage: openhours [OPTIONS] <COMMAND>",
    "",
    "Commands:",
    "  validate <EXPR>                          check that an expression parses",
    "  state <EXPR> [--at <TIME>]               state at an instant, with the time around it",
    "  next <EXPR> [--at <TIME>] [-v]           next instant at which the state changes",
    "  intervals <EXPR> --from <TIME> --to <TIME>  open and unknown times of a range",
    "  week <EXPR> [--at <TIME>]                overview of a week",
    "",
    "Options:",
    "  --public-holiday <DATE>   public holidays, with commas between them",
    "  --school-holiday <DATE>   school holidays, with commas between them",
    "  --max-search-years <N>    how many years a search may go",
    "  --color, --no-color       force or disable colors",
    "  -V, --version             print the version"]

/-- The outcome of a command line, or why it is refused. -/
def run (args : List String) (s : Surroundings) : Except Refusal Outcome :=
  match Request.ofArguments args s.searchYears with
  | .ok request => .ok (request.perform s)
  | .error .version => .ok ⟨0, fun _ => [versionLine], []⟩
  | .error refusal => .error refusal

end OpeningTimes.Console
