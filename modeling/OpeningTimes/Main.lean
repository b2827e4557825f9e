import OpeningTimes.Console.Program
import Std.Time.Zoned

/-!
# The command line program

Reads the arguments, the clock and the environment, and prints what the program says.
-/

namespace OpeningTimes.Console

/-- The local time; midnight of the first date should the clock be out of range. -/
def localNow : IO Instant := do
  let t ← Std.Time.PlainDateTime.now
  let date := Date.ofYearMonthDay? t.year.toInt t.month.toNat t.day.toNat
  let time := TimeOfDay.ofClock? t.hour.val.toNat t.minute.val.toNat t.second.val.toNat
    t.nanosecond.val.toNat
  return ⟨date.getD .first, time.getD .midnight⟩

def printLines (stream : IO.FS.Stream) (lines : List String) : IO Unit :=
  lines.forM fun line => stream.putStrLn line

def program (args : List String) : IO UInt32 := do
  let output ← IO.getStdout
  let errors ← IO.getStderr
  let surroundings : Surroundings := {
    searchYears := ← IO.getEnv "OPENHOURS_MAX_SEARCH_YEARS"
    now := ← localNow
    terminal := ← output.isTty }
  let started ← IO.monoNanosNow
  match run args surroundings with
  | .ok outcome =>
    let code := outcome.code
    let stopped ← IO.monoNanosNow
    printLines output (outcome.output (elapsedText (stopped - started)))
    printLines errors outcome.errors
    return UInt32.ofNat code
  | .error .help =>
    printLines output usageLines
    return 0
  | .error _ =>
    printLines errors usageLines
    return 2

end OpeningTimes.Console

def main (args : List String) : IO UInt32 :=
  OpeningTimes.Console.program args
