import Abacus.Double.Shortest
import Abacus.Span

/-!
# Token

The words of an expression: numbers, the four operators, parentheses, and
the end of the text.
-/

namespace Abacus

/-- What a token is. -/
inductive TokenKind where
  /-- A number without a sign. -/
  | number (value : Double)
  | plus
  | minus
  | star
  | slash
  | leftParen
  | rightParen
  | endOfInput
deriving DecidableEq

namespace TokenKind

/-- Whether a token can stand in a run of signs. -/
def isSign : TokenKind → Bool
  | plus | minus => true
  | _ => false

/-- The text of a token in a message. -/
def text : TokenKind → String
  | number value => String.ofList value.toPlain
  | plus => "+"
  | minus => "-"
  | star => "*"
  | slash => "/"
  | leftParen => "("
  | rightParen => ")"
  | endOfInput => "end of input"

/-- The text of a token as something that was found: quoted, unless it is
the end of the text. -/
def found : TokenKind → String
  | endOfInput => endOfInput.text
  | kind => "'" ++ kind.text ++ "'"

end TokenKind

/-- A token and where it stands. -/
structure Token where
  kind : TokenKind
  span : Span
deriving DecidableEq

end Abacus
