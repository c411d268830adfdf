import Abacus.Expr
import Abacus.Fault.Kind
import Abacus.Numeral
import Abacus.Text.Alphabetic
import Abacus.Token

/-!
# Fault

Everything that can be wrong with an expression, as data: a fault is a
cause and a place. The kind of a cause, its wording and the suggestion that
goes with it are functions of the cause alone; nothing here knows the name
or the lines of the text.
-/

namespace Abacus

/-- Why an expression has no value. -/
inductive Cause where
  | unexpectedCharacter (c : Char)
  /-- A run of digits and points that is not a numeral. -/
  | malformedNumeral (run : List Char)
  | unmatchedClose
  | unclosedOpen
  | tooManyTokens (count limit : Nat)
  | emptyExpression
  | emptyParentheses
  /-- A token where an operand has to begin, after the token before it. -/
  | missingOperand (previous : Option TokenKind) (found : TokenKind)
  /-- A token where a group has to be closed. -/
  | missingClose (found : TokenKind)
  | trailing (found : TokenKind)
  | nestedTooDeep (limit : Nat)
  | stepsExhausted (limit : Nat)
  | zeroDivisor
  /-- A number beyond the finite ones. -/
  | literalTooLarge
  /-- An operation whose result is not finite. -/
  | resultTooLarge (op : BinaryOp)
deriving DecidableEq

namespace Cause

/-- The kind of a cause. -/
def kind : Cause → FaultKind
  | unexpectedCharacter _ => .invalidCharacter
  | unmatchedClose | unclosedOpen => .unbalancedParentheses
  | malformedNumeral _ | emptyExpression | emptyParentheses | missingOperand .. |
    missingClose _ | trailing _ => .malformedExpression
  | zeroDivisor => .divisionByZero
  | literalTooLarge | resultTooLarge _ => .numericOverflow
  | nestedTooDeep _ => .nestingTooDeep
  | tooManyTokens .. => .expressionTooLong
  | stepsExhausted _ => .stepLimitExceeded

/-- The wording of a cause. -/
def message : Cause → String
  | unexpectedCharacter c => "unexpected character '" ++ String.singleton c ++ "'"
  | malformedNumeral run => "malformed number literal " ++ Numeral.quoted run
  | unmatchedClose => "unmatched ')'"
  | unclosedOpen => "unclosed '('"
  | tooManyTokens count limit =>
    "expression has " ++ toString count ++ " tokens, the maximum is " ++ toString limit
  | emptyExpression => "empty expression"
  | emptyParentheses => "empty parentheses"
  | missingOperand none found => "expected a number or '(', found " ++ found.found
  | missingOperand (some previous) found =>
    "expected a number or '(' after '" ++ previous.text ++ "', found " ++ found.found
  | missingClose found => "expected ')' but found " ++ found.found
  | trailing found => "unexpected '" ++ found.text ++ "' after a complete expression"
  | nestedTooDeep limit => "maximum nesting depth is " ++ toString limit
  | stepsExhausted limit =>
    "internal error: evaluation exceeded " ++ toString limit ++ " steps"
  | zeroDivisor => "division by zero"
  | literalTooLarge => "number literal is too large to represent"
  | resultTooLarge op =>
    "result of '" ++ String.singleton op.symbol ++ "' is too large to represent"

/-- What to write instead of a character that cannot stand in an
expression. -/
def characterHint? (c : Char) : Option String :=
  if c ∈ ['×', 'x', 'X', '·'] then some "use '*' for multiplication"
  else if c ∈ ['÷', ':'] then some "use '/' for division"
  else if c ∈ ['−', '–'] then some "use the ASCII '-' for subtraction"
  else if c = ',' then some "use '.' as the decimal separator"
  else if c ∈ ['[', '\x7b'] then some "use '(' to group"
  else if c ∈ [']', '\x7d'] then some "use ')' to close a group"
  else if c = '^' then some "exponentiation is not supported; multiply explicitly"
  else if c = '%' then some "remainder is not supported"
  else if c = '=' then some "enter only the expression, without '='"
  else if Text.isAlphabetic c then some "variables and functions are not supported"
  else none

/-- The suggestion that goes with a cause. -/
def suggestion? : Cause → Option String
  | unexpectedCharacter c => characterHint? c
  | malformedNumeral run => some (Numeral.defect run).hint
  | unmatchedClose => some "remove it or add a matching '(' before it"
  | unclosedOpen => some "add a matching ')'"
  | trailing _ => some "insert an operator between the operands"
  | _ => none

end Cause

/-- A cause and where it shows. -/
structure Fault where
  /-- Why there is no value. -/
  cause : Cause
  /-- Where that shows. -/
  span : Span
deriving DecidableEq

/-- The kind of a fault. -/
def Fault.kind (f : Fault) : FaultKind :=
  f.cause.kind

/-- At least one fault, in the order they were found. -/
structure Faults where
  /-- The fault that was found first. -/
  first : Fault
  rest : List Fault

namespace Faults

/-- A single fault. -/
def one (f : Fault) : Faults := ⟨f, []⟩

/-- All of them. -/
def toList (fs : Faults) : List Fault := fs.first :: fs.rest

end Faults

end Abacus
