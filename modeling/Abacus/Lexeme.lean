import Abacus.Fault
import Abacus.Text.Blank

/-!
# Lexeme

A text is cut into lexemes: the longest runs of white space, the longest
runs of digits and points, and every other character by itself. What a
lexeme means is decided by its characters alone.
-/

namespace Abacus

/-- What a lexeme means. -/
inductive Lexeme where
  /-- White space between tokens. -/
  | blank
  | token (kind : TokenKind)
  /-- Nothing that can stand in an expression. -/
  | bad (cause : Cause)
deriving DecidableEq

namespace Lexeme

/-- Whether two neighbouring characters belong to one lexeme. -/
def joined (a b : Char) : Bool :=
  (Text.isBlank a && Text.isBlank b) || (Numeral.isNumeralChar a && Numeral.isNumeralChar b)

/-- The lexemes of a text, as runs of characters. -/
def runs (text : List Char) : List (List Char) :=
  text.splitBy joined

/-- The meaning of a character that is neither blank nor part of a
numeral. -/
def ofSymbol : Char → Lexeme
  | '+' => token .plus
  | '-' => token .minus
  | '*' => token .star
  | '/' => token .slash
  | '(' => token .leftParen
  | ')' => token .rightParen
  | c => bad (.unexpectedCharacter c)

/-- The meaning of a run of digits and points. -/
def ofNumeral (run : List Char) : Lexeme :=
  if Numeral.isNumeral run then token (.number (Numeral.value run))
  else bad (.malformedNumeral run)

/-- The meaning of a lexeme, told by its first character. -/
def ofRun : List Char → Lexeme
  | [] => blank
  | c :: cs =>
    if Text.isBlank c then blank
    else if Numeral.isNumeralChar c then ofNumeral (c :: cs)
    else ofSymbol c

end Lexeme

end Abacus
