import OpeningTimes.Console.Colouring
import OpeningTimes.Hours

/-!
# Reports

The lines that the program prints. Every report starts with the expression and ends with an empty
line. An error of the expression is shown with a caret under its place.
-/

namespace OpeningTimes.Console

/-- How many characters begin before some place, which is counted in bytes. -/
def columnOf (position : Nat) : List Char → Nat
  | [] => 0
  | c :: cs => if position = 0 then 0 else columnOf (position - c.utf8Size) cs + 1

def padded (width : Nat) (text : String) : String :=
  text ++ String.ofList (List.replicate (width - text.length) ' ')

/-- Nanoseconds in the greatest unit that holds one of them at least. -/
def elapsedText (nanoseconds : Nat) : String :=
  let (size, places, unit) :=
    if 1000000000 ≤ nanoseconds then (1000000000, 9, "s")
    else if 1000000 ≤ nanoseconds then (1000000, 6, "ms")
    else if 1000 ≤ nanoseconds then (1000, 3, "µs")
    else (1, 0, "ns")
  let fraction := Text.fixedDigits places (nanoseconds % size)
  let shown := (fraction.reverse.dropWhile (· = '0')).reverse
  toString (nanoseconds / size) ++
    (if shown.isEmpty then "" else "." ++ String.ofList shown) ++ unit

namespace Colouring

def title (p : Colouring) (raw : String) : List String :=
  ["", p.strong (p.tint .cyan ("⚙  Expression: \"" ++ raw ++ "\""))]

def heading (p : Colouring) (text : String) : List String :=
  ["", p.tint .gray ("━━━ " ++ text ++ " ━━━")]

def state (p : Colouring) (s : State) : String :=
  let colour := match s with
    | .opened => Colour.green
    | .closed => .red
    | .unknown => .yellow
  p.strong (p.tint colour s.text)

def bound (p : Colouring) : Option Instant → String
  | some t => p.tint .yellow t.shortText
  | none => p.faint "unbounded"

def comment (p : Colouring) : Option String → String
  | some text => "  " ++ p.tint .blue ("\"" ++ text ++ "\"")
  | none => ""

def openEnd (p : Colouring) (shown : Bool) : String :=
  if shown then p.tint .yellow "  (open end)" else ""

def valid (p : Colouring) (h : Hours) : List String :=
  let rules := h.rules.length
  p.title h.raw ++ ["  " ++ p.tint .green "✓ valid" ++ " " ++ p.faint s!"({rules} rules)", ""]

def parseError (p : Colouring) (raw : String) (e : ParseError) : List String :=
  let column := columnOf e.position raw.toList
  [p.strong (p.tint .red "error:") ++ " " ++ e.message,
    "  " ++ raw,
    "  " ++ String.ofList (List.replicate column ' ') ++ p.tint .red "^"]

def extent (p : Colouring) (e : Extent) : String :=
  "  " ++ p.faint "interval:" ++ " " ++ p.bound e.start ++ " " ++ p.faint "→" ++ " " ++
    p.bound e.stop ++ p.openEnd e.status.openEnd

def finding (p : Colouring) (h : Hours) (t : Instant) : List String :=
  let f := h.findingAt t
  p.title h.raw ++ p.heading "State" ++
    ["  " ++ p.faint ("at " ++ t.shortText ++ ":") ++ " " ++ p.state f.status.state ++
      p.comment f.status.comment] ++
    f.extent.toList.map p.extent ++ [""]

def change (p : Colouring) : Except Undecided (Option Instant) → String
  | .ok (some t) => p.strong (p.tint .green t.shortText)
  | .ok none => p.faint "never (the state is constant from here on)"
  | .error u => p.tint .red u.message

/-- The layers that a search built and the time that it took. -/
def effort (p : Colouring) (found : Search) (elapsed : String) : List String :=
  p.heading "Search" ++
    ["  Days evaluated: " ++ p.tint .blue (toString found.built) ++ "  │  Elapsed: " ++
      p.tint .green elapsed]

def search (p : Colouring) (h : Hours) (t : Instant) (found : Search) : List String :=
  p.title h.raw ++ p.heading "Next change" ++
    ["  " ++ p.faint ("after " ++ t.shortText ++ ":") ++ " " ++ p.change found.result]

def numberedStretch (p : Colouring) (r : Stretch) (number : Nat) : String :=
  "  " ++ p.tint .gray s!"[{number}]" ++ " " ++ p.bound r.start ++ " " ++ p.faint "→" ++ " " ++
    p.bound r.stop ++ " " ++ p.state r.status.state ++ p.openEnd r.status.openEnd ++
    p.comment r.status.comment

def stretches (p : Colouring) (h : Hours) (start stop : Instant) : List String :=
  let rs := h.openStretches start stop
  let notice := if rs.isEmpty then [p.faint "  No open intervals in range"] else []
  p.title h.raw ++ p.heading "Intervals" ++ notice ++
    rs.mapIdx (fun number r => p.numberedStretch r number) ++ [""]

def dayView (p : Colouring) (v : DayView) : String :=
  let times := v.times.map fun (start, stop) => start.hourMinute ++ "-" ++ stop.hourMinute
  let times := if times.isEmpty then p.faint "-" else String.intercalate ", " times
  "  " ++ p.tint .cyan v.date.weekday.abbreviation ++ " " ++ p.faint v.date.text ++ " " ++
    padded 8 (p.state v.state) ++ " " ++ times

def week (p : Colouring) (h : Hours) (d : Date) : List String :=
  p.title h.raw ++ p.heading "Week" ++ (h.week d).map p.dayView ++ [""]

end Colouring

end OpeningTimes.Console
