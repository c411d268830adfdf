import Abacus.Fault

/-!
# Expr — Evaluate

The value of an expression. Each node costs one step, paid to a meter that
stops the evaluation when its limit is passed. Steps are counted in a word of
64 bits, which goes on at zero after its last value. A chain of operators is
followed down its left side first, with the operations still to do kept in
a list, so that only nesting, never the length of a chain, makes the
evaluation nest.
-/

namespace Abacus

/-- The result of an operator, or why there is none. -/
def BinaryOp.apply (op : BinaryOp) (x y : Double) : Except Cause Double :=
  let result :=
    match op with
    | .add => x.add y
    | .sub => x.sub y
    | .mul => x.mul y
    | .div => x.div y
  if op = .div ∧ y.isZero then .error .zeroDivisor
  else if result.isFinite then .ok result
  else .error (.resultTooLarge op)

/-- A computation that counts its steps and can end in a fault. The count
goes on after a fault. -/
abbrev Metered := ExceptT Fault (StateM UInt64)

namespace Metered

/-- Takes one step for the node at `span`, if the limit allows it. -/
def tick (limit : Nat) (span : Span) : Metered Unit := do
  modify (· + 1)
  if limit < (← get).toNat then throw ⟨.stepsExhausted limit, span⟩

/-- A result at a place. -/
def ofResult {α : Type} (span : Span) (result : Except Cause α) : Metered α :=
  match result with
  | .ok value => pure value
  | .error cause => throw ⟨cause, span⟩

end Metered

namespace Expr

/-- The number of a literal, if it is one of the finite numbers. -/
def literalValue (value : Double) : Except Cause Double :=
  if value.isFinite then .ok value else .error .literalTooLarge

/-- An operation on what is to its left. -/
abbrev Operation := Double → Metered Double

/-- Does operations one after the other, each on the result of the one
before it. -/
def finishChain (operations : List Operation) (value : Double) : Metered Double :=
  operations.foldlM (fun left operation => operation left) value

/-- Evaluates an expression and does the waiting operations, the first in
the list first, on its value. -/
def evalThen (limit : Nat) : Expr → List Operation → Metered Double
  | literal span value, waiting => do
    Metered.tick limit span
    let value ← Metered.ofResult span (literalValue value)
    finishChain waiting value
  | negate span operand, waiting => do
    Metered.tick limit span
    let value ← evalThen limit operand []
    finishChain waiting value.neg
  | group span inner, waiting => do
    Metered.tick limit span
    let value ← evalThen limit inner []
    finishChain waiting value
  | binary span op left right, waiting =>
    let operation : Operation := fun x => do
      Metered.tick limit span
      let y ← evalThen limit right []
      Metered.ofResult span (op.apply x y)
    evalThen limit left (operation :: waiting)

/-- Evaluates an expression with a limit on the number of steps. -/
def eval (limit : Nat) (e : Expr) : Metered Double :=
  evalThen limit e []

end Expr

/-- A meter that is carried from one evaluation to the next. -/
structure Meter where
  steps : UInt64
  limit : Nat
deriving DecidableEq

namespace Meter

/-- The highest limit, which no count of steps is above. -/
def unlimited : Nat := 18446744073709551615

/-- Evaluates an expression on a meter. -/
def evaluate (m : Meter) (e : Expr) : Except Fault Double × Meter :=
  let (result, steps) := (e.eval m.limit).run.run m.steps
  (result, { m with steps := steps })

end Meter

end Abacus
