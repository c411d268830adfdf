import Abacus.Proofs.Evaluation

/-!
# Chains

Two more ways to say what an evaluation does. One follows a chain of
operators as a loop would: down the left side to the first node that is no
operator, and from its value back up, one operation after the other. The
other is recursion on the tree, in which each part is handed the meter that
the part before it left, and nothing comes after a fault.
-/

namespace Abacus

namespace Expr

/-! ## A chain as a loop -/

/-- An operator of a chain and its right operand. -/
structure Link where
  /-- Where the operator stands with both operands. -/
  span : Span
  op : BinaryOp
  right : Expr

/-- The first node down the left side of a tree that is no operator. -/
def innermost : Expr → Expr
  | binary _ _ left _ => left.innermost
  | e => e

/-- The operators down the left side of a tree, the outermost first. -/
def links : Expr → List Link
  | binary span op left right => ⟨span, op, right⟩ :: left.links
  | _ => []

/-- Does the operation of a link on what is to its left. -/
def Link.operate (limit : Nat) (x : Double) (link : Link) : Metered Double := do
  Metered.tick limit link.span
  let y ← eval limit link.right
  Metered.ofResult link.span (link.op.apply x y)

theorem eval_eq_direct (limit : Nat) (e : Expr) : eval limit e = direct limit e := by
  rw [eval, evalThen_eq]
  exact bind_pure _

/-- An operation comes after all that is to its left. -/
theorem eval_binary (limit : Nat) (span : Span) (op : BinaryOp) (left right : Expr) :
    eval limit (binary span op left right) =
      eval limit left >>= fun x => Link.operate limit x ⟨span, op, right⟩ := by
  simp only [eval_eq_direct, direct, Link.operate]

/-- **An evaluation is the loop**: the innermost node, and then the links
from the innermost to the outermost. -/
theorem eval_eq_foldlM (limit : Nat) (e : Expr) :
    eval limit e =
      eval limit e.innermost >>= fun x => e.links.reverse.foldlM (Link.operate limit) x := by
  induction e with
  | binary span op left right ih _ =>
    -- the outermost link is the last one of the reversed list
    rw [eval_binary, ih, innermost, links, List.reverse_cons, bind_assoc]
    simp only [List.foldlM_append, List.foldlM_cons, List.foldlM_nil, bind_pure]
  | _ => exact (bind_pure _).symm

end Expr

/-! ## Recursion on a meter -/

namespace Meter

/-- Takes one step for the node at `span`, if the limit allows it. The step
is counted also when the limit is passed. -/
def pay (m : Meter) (span : Span) : Except Fault Unit × Meter :=
  let paid := { m with steps := m.steps + 1 }
  if m.limit < paid.steps.toNat then (.error ⟨.stepsExhausted m.limit, span⟩, paid)
  else (.ok (), paid)

/-- Evaluates by recursion on the tree. An operator is its left operand, then
one step, then its right operand, then the operation. -/
def recurse (m : Meter) : Expr → Except Fault Double × Meter
  | .literal span x =>
    match m.pay span with
    | (.error fault, m) => (.error fault, m)
    | (.ok _, m) => ((Expr.literalValue x).mapError fun cause => ⟨cause, span⟩, m)
  | .negate span operand =>
    match m.pay span with
    | (.error fault, m) => (.error fault, m)
    | (.ok _, m) =>
      match m.recurse operand with
      | (.error fault, m) => (.error fault, m)
      | (.ok x, m) => (.ok x.neg, m)
  | .group span inner =>
    match m.pay span with
    | (.error fault, m) => (.error fault, m)
    | (.ok _, m) => m.recurse inner
  | .binary span op left right =>
    match m.recurse left with
    | (.error fault, m) => (.error fault, m)
    | (.ok x, m) =>
      match m.pay span with
      | (.error fault, m) => (.error fault, m)
      | (.ok _, m) =>
        match m.recurse right with
        | (.error fault, m) => (.error fault, m)
        | (.ok y, m) => ((op.apply x y).mapError fun cause => ⟨cause, span⟩, m)

/-- A metered computation on a meter. -/
def run {α : Type} (m : Meter) (computation : Nat → Metered α) : Except Fault α × Meter :=
  let (result, steps) := (computation m.limit).run.run m.steps
  (result, { m with steps := steps })

theorem run_tick (m : Meter) (span : Span) :
    m.run (fun limit => Metered.tick limit span) = m.pay span := by
  have hrun : m.run (fun limit => Metered.tick limit span) =
      run { m with steps := m.steps + 1 } fun limit =>
        if limit < (m.steps + 1).toNat then throw ⟨.stepsExhausted limit, span⟩ else pure () := rfl
  rw [hrun, pay, run]
  by_cases hlimit : m.limit < (m.steps + 1).toNat
  · simp only [if_pos hlimit]
    rfl
  · simp only [if_neg hlimit]
    rfl

theorem run_bind {α β : Type} (m : Meter) (c : Nat → Metered α) (f : Nat → α → Metered β) :
    m.run (fun limit => c limit >>= f limit) =
      match m.run c with
      | (.error fault, m) => (.error fault, m)
      | (.ok a, m) => m.run fun limit => f limit a := by
  simp only [run]
  cases hc : (c m.limit).run.run m.steps with
  | mk result steps => cases result with
    | error fault => simp only [Metered.run_bind_error _ hc]
    | ok a => simp only [Metered.run_bind_ok _ hc]

theorem run_ofResult {α : Type} (m : Meter) (span : Span) (result : Except Cause α) :
    m.run (fun _ => Metered.ofResult span result) =
      (result.mapError fun cause => ⟨cause, span⟩, m) := by
  cases result <;> rfl

/-- **Recursion on a meter, written out.** -/
theorem run_direct (m : Meter) (e : Expr) :
    m.run (fun limit => e.direct limit) = m.recurse e := by
  induction e generalizing m with
  | literal span x =>
    simp only [Expr.direct, recurse, run_bind, run_tick, run_ofResult]
    rcases m.pay span with ⟨_ | _, paid⟩ <;> rfl
  | negate span operand ih =>
    simp only [Expr.direct, recurse, run_bind, run_tick, ih]
    rcases m.pay span with ⟨_ | _, paid⟩
    · rfl
    · dsimp only
      rcases paid.recurse operand with ⟨_ | _, m'⟩ <;> rfl
  | group span inner ih =>
    simp only [Expr.direct, recurse, run_bind, run_tick, ih]
    rcases m.pay span with ⟨_ | _, paid⟩ <;> rfl
  | binary span op left right ihl ihr =>
    simp only [Expr.direct, recurse, run_bind, run_tick, run_ofResult, ihl, ihr]
    rcases m.recurse left with ⟨_ | x, m'⟩
    · rfl
    · dsimp only
      rcases m'.pay span with ⟨_ | _, paid⟩
      · rfl
      · dsimp only
        rcases paid.recurse right with ⟨_ | y, m''⟩ <;> rfl

/-- **An evaluation is plain recursion.** Whatever the tree, the steps taken
before and the limit, the evaluation of a tree gives what the recursion
gives, the number or the first fault with its place, and leaves the meter as
the recursion leaves it, even where the counter goes on at zero. And it is
the loop along the left side of the chain. -/
theorem evaluate_eq_recurse (m : Meter) (e : Expr) :
    m.evaluate e = m.recurse e ∧
      e.eval m.limit = e.innermost.eval m.limit >>= fun x =>
        e.links.reverse.foldlM (Expr.Link.operate m.limit) x := by
  refine ⟨?_, Expr.eval_eq_foldlM m.limit e⟩
  calc m.evaluate e = m.run fun limit => e.eval limit := rfl
    _ = m.run fun limit => e.direct limit := by simp only [Expr.eval_eq_direct]
    _ = m.recurse e := run_direct m e

end Meter

end Abacus
