import Abacus.Double.Arithmetic
import Abacus.Double.Shortest
import Abacus.Span

/-!
# Expr

Arithmetic expressions as trees. Every node knows the stretch of text it
was read from.
-/

namespace Abacus

/-- The binary operators. -/
inductive BinaryOp where
  | add
  | sub
  | mul
  | div
deriving DecidableEq

/-- The symbol an operator is written with. -/
def BinaryOp.symbol : BinaryOp → Char
  | add => '+'
  | sub => '-'
  | mul => '*'
  | div => '/'

/-- An expression. -/
inductive Expr where
  | literal (span : Span) (value : Double)
  /-- A run of signs with an odd number of `-`, and its operand. -/
  | negate (span : Span) (operand : Expr)
  | group (span : Span) (inner : Expr)
  | binary (span : Span) (op : BinaryOp) (left right : Expr)
deriving DecidableEq

namespace Expr

/-- Where an expression stands. -/
def span : Expr → Span
  | literal span _ | negate span _ | group span _ | binary span _ _ _ => span

/-- The same expression, standing elsewhere; what is inside it stays. -/
def withSpan (span : Span) : Expr → Expr
  | literal _ value => literal span value
  | negate _ operand => negate span operand
  | group _ inner => group span inner
  | binary _ op left right => binary span op left right

/-- What is left where an expression was moved away: a zero in its place. -/
def vacated (e : Expr) : Expr :=
  literal e.span (.zero false)

/-- Structural equality, spans included, with numbers compared as numbers:
the two zeros are equal, and a tree that holds not-a-number differs from
every tree. -/
def numEq : Expr → Expr → Bool
  | literal s x, literal t y => s == t && x.numEq y
  | negate s e, negate t f => s == t && numEq e f
  | group s e, group t f => s == t && numEq e f
  | binary s op e g, binary t op' f h =>
    s == t && op == op' && numEq e f && numEq g h
  | _, _ => false

/-- Writes the s-expression of a tree in front of `rest`. A group is not
written: how the operands bind shows anyway. -/
def sexprOnto : Expr → List Char → List Char
  | literal _ value, rest => value.toPlain ++ rest
  | negate _ operand, rest => ['(', 'n', 'e', 'g', ' '] ++ sexprOnto operand (')' :: rest)
  | group _ inner, rest => sexprOnto inner rest
  | binary _ op left right, rest =>
    '(' :: op.symbol :: ' ' :: sexprOnto left (' ' :: sexprOnto right (')' :: rest))

/-- The s-expression of a tree. -/
def sexpr (e : Expr) : String :=
  String.ofList (sexprOnto e [])

/-- The number of nodes of a tree. -/
def size : Expr → Nat
  | literal .. => 1
  | negate _ operand => operand.size + 1
  | group _ inner => inner.size + 1
  | binary _ _ left right => left.size + right.size + 1

@[simp] theorem span_withSpan (s : Span) (e : Expr) : (e.withSpan s).span = s := by
  cases e <;> rfl

@[simp] theorem size_withSpan (s : Span) (e : Expr) : (e.withSpan s).size = e.size := by
  cases e <;> rfl

/-- A tree has a node. -/
theorem size_pos (e : Expr) : 0 < e.size := by
  cases e <;> simp [size]

end Expr

end Abacus
