/-!
# Fault — Kind

The kinds of fault, their numbers, and the categories the numbers fall
into.
-/

namespace Abacus

/-- What went wrong, wherever it did. -/
inductive FaultKind where
  /-- A character that cannot stand in an expression. -/
  | invalidCharacter
  /-- A `)` without a `(`, or a `(` that is never closed. -/
  | unbalancedParentheses
  /-- A bad numeral, a missing operand, an empty group, trailing text. -/
  | malformedExpression
  /-- A right operand of `/` that is zero. -/
  | divisionByZero
  /-- A number or a result that is not finite. -/
  | numericOverflow
  | nestingTooDeep
  | expressionTooLong
  | stepLimitExceeded
deriving DecidableEq

/-- The broad category of a fault. -/
inductive FaultCategory where
  /-- The text is not an expression. -/
  | syntactic
  /-- The expression has no finite value. -/
  | arithmetic
  | limit
deriving DecidableEq

/-- A stable number for a kind of fault. -/
structure FaultCode where
  number : Nat
deriving DecidableEq

namespace FaultCategory

/-- The word for a category. -/
def name : FaultCategory → String
  | syntactic => "syntax"
  | arithmetic => "arithmetic"
  | limit => "limit"

/-- All categories. -/
def all : List FaultCategory := [syntactic, arithmetic, limit]

/-- The category with a given word. -/
def ofName? (name : String) : Option FaultCategory :=
  all.find? fun category => category.name == name

/-- A category is found by its word. -/
theorem ofName?_name (c : FaultCategory) : ofName? c.name = some c := by
  cases c <;> decide

end FaultCategory

namespace FaultCode

/-- The hundreds decide the category: 200 to 299 arithmetic, 300 to 399
limits, all else the text itself. -/
def category (code : FaultCode) : FaultCategory :=
  if 200 ≤ code.number ∧ code.number ≤ 299 then .arithmetic
  else if 300 ≤ code.number ∧ code.number ≤ 399 then .limit
  else .syntactic

/-- A code as it is shown. -/
def text (code : FaultCode) : String :=
  "E" ++ toString code.number

end FaultCode

namespace FaultKind

/-- The number of a kind. -/
def code : FaultKind → FaultCode
  | invalidCharacter => ⟨100⟩
  | unbalancedParentheses => ⟨101⟩
  | malformedExpression => ⟨102⟩
  | divisionByZero => ⟨200⟩
  | numericOverflow => ⟨201⟩
  | nestingTooDeep => ⟨300⟩
  | expressionTooLong => ⟨301⟩
  | stepLimitExceeded => ⟨302⟩

/-- The word for a kind. -/
def name : FaultKind → String
  | invalidCharacter => "invalid_character"
  | unbalancedParentheses => "unbalanced_parentheses"
  | malformedExpression => "malformed_expression"
  | divisionByZero => "division_by_zero"
  | numericOverflow => "numeric_overflow"
  | nestingTooDeep => "nesting_too_deep"
  | expressionTooLong => "expression_too_long"
  | stepLimitExceeded => "step_limit_exceeded"

/-- All kinds. -/
def all : List FaultKind :=
  [invalidCharacter, unbalancedParentheses, malformedExpression, divisionByZero,
   numericOverflow, nestingTooDeep, expressionTooLong, stepLimitExceeded]

/-- The kind with a given word. -/
def ofName? (name : String) : Option FaultKind :=
  all.find? fun kind => kind.name == name

/-- A kind is found by its word. -/
theorem ofName?_name (k : FaultKind) : ofName? k.name = some k := by
  cases k <;> decide

/-- Each kind has a number of its own. -/
theorem code_injective {k l : FaultKind} (h : k.code = l.code) : k = l := by
  cases k <;> cases l <;> first | rfl | (exact absurd h (by decide))

end FaultKind

end Abacus
