import OpeningTimes.Expression.Grammar.Rules
import OpeningTimes.Expression.Token

/-!
# From text to rules

Reading stops at the first error. An error of the grammar stands at a token, or at the end of the
last one where more was wanted.
-/

namespace OpeningTimes

structure GrammarError where
  position : Nat
  expected : Grammar.Expected
  /-- The token at fault, none at the end of the input. -/
  found : Option Token
deriving BEq, DecidableEq, Repr

namespace GrammarError

def foundText (e : GrammarError) : String :=
  match e.found with
  | some token => token.quoted
  | none => "end of input"

def message (e : GrammarError) : String :=
  s!"syntax error at position {e.position}: expected {e.expected.text}, found {e.foundText}"

/-- The place of a failure in the tokens that were read. -/
def ofFailure (tokens : List Token) (failure : Grammar.Failure) : GrammarError :=
  match tokens[tokens.length - failure.left]? with
  | some token => ⟨token.position, failure.expected, some token⟩
  | none => ⟨(tokens.getLast?.map Token.stop).getD 0, failure.expected, none⟩

end GrammarError

inductive ParseError where
  | token (error : TokenError)
  | grammar (error : GrammarError)
deriving BEq, DecidableEq, Repr

namespace ParseError

def position : ParseError → Nat
  | .token error => error.position
  | .grammar error => error.position

def message : ParseError → String
  | .token error => error.message
  | .grammar error => error.message

end ParseError

namespace Rule

def ofTokens (tokens : List Token) : Except GrammarError (List Rule) :=
  (Grammar.rules (tokens.map Token.lexeme)).mapError (GrammarError.ofFailure tokens)

def ofText (raw : String) : Except ParseError (List Rule) := do
  let tokens ← (Token.readAll raw).mapError .token
  (ofTokens tokens).mapError .grammar

end Rule

end OpeningTimes
