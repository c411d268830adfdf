import Abacus.Proofs.Evaluation
import Abacus.Proofs.Grammar

/-!
# Outcome

The value of a tree, or the kind of its first fault. Places do not show in
an outcome, nor which operator a result was too large for, so this is what
two trees of different shape can have in common. A sign moves through
outcomes: out of the left operand of a product, and from the right operand
of a sum into its operator.
-/

namespace Abacus

/-- A number or its opposite. -/
def Double.negIf (negative : Bool) (x : Double) : Double :=
  if negative then x.neg else x

@[simp] theorem Double.negIf_true : Double.negIf true = Double.neg := rfl

@[simp] theorem Double.negIf_false : Double.negIf false = id := rfl

theorem map_negIf_false (result : Except FaultKind Double) :
    result.map (Double.negIf false) = result := by
  cases result <;> rfl

theorem map_negIf_negIf (result : Except FaultKind Double) (a b : Bool) :
    (result.map (Double.negIf a)).map (Double.negIf b) = result.map (Double.negIf (a ^^ b)) := by
  cases result with
  | error => rfl
  | ok x => cases a <;> cases b <;> simp [Except.map, Double.neg_neg]

namespace BinaryOp

variable {op : BinaryOp} {x y : Double}

/-- The other operator between terms. -/
def opposite : BinaryOp → BinaryOp
  | add => sub
  | sub => add
  | mul => mul
  | div => div

/-- The result of an operator, or the kind of fault. -/
def outcome (op : BinaryOp) (x y : Double) : Except FaultKind Double :=
  (op.apply x y).mapError Cause.kind

theorem outcome_eq (op : BinaryOp) (x y : Double) :
    op.outcome x y =
      if op = .div ∧ y.isZero = true then .error .divisionByZero
      else if (op.result x y).isFinite = true then .ok (op.result x y)
      else .error .numericOverflow := by
  rw [outcome, apply_eq]
  split
  · rfl
  · split <;> rfl

/-- A sign moves out of the left operand of a product. -/
theorem outcome_neg_left (h : op.isProduct = true) :
    op.outcome x.neg y = (op.outcome x y).map Double.neg := by
  have hresult : op.result x.neg y = (op.result x y).neg := by
    cases op with
    | mul => exact Double.neg_mul x y
    | div => exact Double.neg_div x y
    | _ => cases h
  rw [outcome_eq, outcome_eq, hresult, Double.isFinite_neg]
  split
  · rfl
  · split <;> rfl

/-- A sign of the right operand of a sum moves into the operator. -/
theorem outcome_neg_right (h : op.isSum = true) :
    op.outcome x y.neg = op.opposite.outcome x y := by
  have hresult : op.result x y.neg = op.opposite.result x y := by
    cases op with
    | add => exact Double.add_neg x y
    | sub => exact Double.sub_neg x y
    | _ => cases h
  rw [outcome_eq, outcome_eq, hresult]
  cases op with
  | add => rfl
  | sub => rfl
  | _ => cases h

end BinaryOp

namespace Expr

variable {l l' r r' : Expr} {op : BinaryOp}

/-- The value of a tree, or the kind of its first fault. -/
def outcome (e : Expr) : Except FaultKind Double :=
  (value e).mapError Fault.kind

theorem outcome_literal (s s' : Span) (x : Double) :
    outcome (literal s x) = outcome (literal s' x) := by
  rw [outcome, outcome, value, value]
  cases literalValue x <;> rfl

theorem outcome_negate (s : Span) (e : Expr) :
    outcome (negate s e) = (outcome e).map Double.neg := by
  rw [outcome, outcome, value]
  cases value e <;> rfl

theorem outcome_binary (s : Span) (op : BinaryOp) (l r : Expr) :
    outcome (binary s op l r) =
      (outcome l).bind fun x => (outcome r).bind fun y => op.outcome x y := by
  rw [outcome, outcome, outcome, value]
  cases value l with
  | error => rfl
  | ok x => cases value r with
    | error => rfl
    | ok y =>
      show ((op.apply x y).mapError _).mapError _ = (op.apply x y).mapError _
      cases op.apply x y <;> rfl

theorem outcome_withSpan (s : Span) (e : Expr) : outcome (e.withSpan s) = outcome e := by
  cases e with
  | literal => exact outcome_literal _ _ _
  | negate => rw [withSpan, outcome_negate, outcome_negate]
  | group => rfl
  | binary => rw [withSpan, outcome_binary, outcome_binary]

/-- A product whose left operand is negated is negated. -/
theorem outcome_join_product {negative : Bool} (h : negative = true → op.isProduct = true)
    (left : outcome l = (outcome l').map (Double.negIf negative))
    (right : outcome r = outcome r') :
    outcome (join l op r) = (outcome (join l' op r')).map (Double.negIf negative) := by
  rw [join, join, outcome_binary, outcome_binary, left, right]
  cases outcome l' with
  | error => rfl
  | ok x => cases outcome r' with
    | error => rfl
    | ok y => cases negative with
      | false => exact (map_negIf_false _).symm
      | true => exact BinaryOp.outcome_neg_left (h rfl)

/-- A sum whose right operand is negated has the other operator. -/
theorem outcome_join_sum (h : op.isSum = true) (left : outcome l = outcome l')
    (right : outcome r = (outcome r').map Double.neg) :
    outcome (join l op r) = outcome (join l' op.opposite r') := by
  rw [join, join, outcome_binary, outcome_binary, left, right]
  cases outcome l' with
  | error => rfl
  | ok x => cases outcome r' with
    | error => rfl
    | ok y => exact BinaryOp.outcome_neg_right h

end Expr

end Abacus
