/-!
# Colours of a terminal

A colouring that is off leaves text as it is. One that is on wraps it in escape sequences.
-/

namespace OpeningTimes.Console

inductive Colour where
  | red | green | yellow | blue | cyan | gray
deriving BEq, DecidableEq, Repr

def Colour.code : Colour → String
  | .red => "\x1b[31m"
  | .green => "\x1b[32m"
  | .yellow => "\x1b[33m"
  | .blue => "\x1b[34m"
  | .cyan => "\x1b[36m"
  | .gray => "\x1b[90m"

structure Colouring where
  on : Bool
deriving BEq, DecidableEq, Repr

namespace Colouring

def wrap (p : Colouring) (code text : String) : String :=
  if p.on then code ++ text ++ "\x1b[0m" else text

def tint (p : Colouring) (c : Colour) (text : String) : String := p.wrap c.code text

def strong (p : Colouring) (text : String) : String := p.wrap "\x1b[1m" text

def faint (p : Colouring) (text : String) : String := p.wrap "\x1b[2m" text

end Colouring

end OpeningTimes.Console
