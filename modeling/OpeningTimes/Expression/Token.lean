import OpeningTimes.Expression.Vocabulary
import OpeningTimes.Text.Blank
import OpeningTimes.Text.Digits

/-!
# Tokens

An expression is cut into tokens from left to right. Blanks stand between tokens and mean nothing;
every other character belongs to a token or is an error at its place. Places are counted in bytes of
UTF-8.
-/

namespace OpeningTimes

open Text

structure Token where
  lexeme : Lexeme
  /-- The characters as they are written. -/
  text : String
  position : Nat
deriving BEq, DecidableEq, Repr

/-- The place right after the token. -/
def Token.stop (t : Token) : Nat :=
  t.position + t.text.utf8ByteSize

def Token.quoted (t : Token) : String :=
  s!"'{t.text}'"

/-- Why the text at some place is no token. -/
inductive TokenFault where
  | unexpectedChar (char : Char)
  | unknownWord (word : String)
  | unterminatedComment
deriving BEq, DecidableEq, Repr

structure TokenError where
  position : Nat
  fault : TokenFault
deriving BEq, DecidableEq, Repr

def TokenFault.message : TokenFault → String
  | .unexpectedChar c => s!"unexpected character '{c}'"
  | .unknownWord word => s!"unknown word '{word}'"
  | .unterminatedComment => "unterminated comment"

def TokenError.message (e : TokenError) : String :=
  s!"{e.fault.message} at position {e.position}"

namespace Lexeme

/-- Numbers stop here; further digits make no difference. -/
def numberLimit : Nat := 4294967295

/-- An hour of one or two digits, a colon and two digits. The second part counts the characters
after the first one. -/
def clock? (c : Char) : List Char → Option (Lexeme × Nat)
  | ':' :: m :: n :: _ => do
    let hour ← readDigits? [c]
    let minute ← readDigits? [m, n]
    return (.clock hour minute, 3)
  | d :: ':' :: m :: n :: _ => do
    let hour ← readDigits? [c, d]
    let minute ← readDigits? [m, n]
    return (.clock hour minute, 4)
  | _ => none

/-- The lexeme that starts with a character, and how many of the characters after it belong to it. A
clock comes before a number, which takes all digits, and a word takes all letters. -/
def read (c : Char) (cs : List Char) : Except TokenFault (Lexeme × Nat) :=
  if c.isDigit then
    match clock? c cs with
    | some found => .ok found
    | none =>
      let digits := cs.takeWhile Char.isDigit
      .ok (.number (min (digitsValue (c :: digits)) numberLimit) (digits.length + 1), digits.length)
  else if c.isAlpha then
    let letters := cs.takeWhile Char.isAlpha
    match ofWord? (c :: letters) with
    | some lexeme => .ok (lexeme, letters.length)
    | none => .error (.unknownWord (String.ofList (c :: letters)))
  else if c = '"' then
    let inside := cs.takeWhile (· ≠ '"')
    if inside.length < cs.length then .ok (.comment (String.ofList inside), inside.length + 1)
    else .error .unterminatedComment
  else if c = '|' then
    if cs.head? = some '|' then .ok (.mark .doubleBar, 1) else .error (.unexpectedChar c)
  else
    match Mark.ofChar? c with
    | some m => .ok (.mark m, 0)
    | none => .error (.unexpectedChar c)

end Lexeme

namespace Token

/-- The tokens of the characters from some place on. The first ones may belong to a token that has
been read already. -/
def readFrom (position : Nat) : (taken : Nat) → List Char → Except TokenError (List Token)
  | _, [] => .ok []
  | taken + 1, c :: cs => readFrom (position + c.utf8Size) taken cs
  | 0, c :: cs =>
    if isBlank c then readFrom (position + c.utf8Size) 0 cs
    else
      match Lexeme.read c cs with
      | .error fault => .error ⟨position, fault⟩
      | .ok (lexeme, more) => do
        let tokens ← readFrom (position + c.utf8Size) more cs
        return ⟨lexeme, String.ofList (c :: cs.take more), position⟩ :: tokens

def readAll (raw : String) : Except TokenError (List Token) :=
  readFrom 0 0 raw.toList

end Token

end OpeningTimes
