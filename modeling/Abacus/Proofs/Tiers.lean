import Abacus.Expr.Evaluate
import Abacus.Proofs.Grammar

/-!
# Tiers

The value of a list of tokens by reduction, without a tree. Groups go
first: once a `)` is met, what stands after the nearest `(` is reduced and
its value put in place of the group. Tokens without groups are operands,
each with its run of signs, and operators between them. Then the leftmost
`*` or `/` is applied to its two neighbours until none is left, and after
that the leftmost `+` or `-`.
-/

namespace Abacus

/-- The operator that a token is between two operands. -/
def TokenKind.binaryOp? : TokenKind → Option BinaryOp
  | plus => some .add
  | minus => some .sub
  | star => some .mul
  | slash => some .div
  | _ => none

/-- The result of an operator, if there is one. -/
def BinaryOp.applied? (op : BinaryOp) (x y : Double) : Option Double :=
  (op.apply x y).toOption

/-- Operands with operators between them: the first operand, then each
operator and the operand to its right. -/
structure Chain where
  first : Double
  rest : List (BinaryOp × Double)

namespace Tiers

/-! ## The reduction -/

mutual

/-- The operands of tokens without groups, from the run of signs of the
first. Its sign so far is given. Every number has to be finite. -/
def operands? (negative : Bool) : List TokenKind → Option Chain
  | .plus :: ts => operands? negative ts
  | .minus :: ts => operands? (!negative) ts
  | .number x :: ts =>
    if x.isFinite then (others? ts).map (Chain.mk (if negative then x.neg else x)) else none
  | _ => none

/-- The operators and operands after an operand. -/
def others? : List TokenKind → Option (List (BinaryOp × Double))
  | [] => some []
  | t :: ts => do
    let op ← t.binaryOp?
    let chain ← operands? false ts
    return (op, chain.first) :: chain.rest

end

/-- Applies the leftmost operator of a tier to its two neighbours. -/
def reduceLeftmost? (tier : BinaryOp → Bool) (x : Double) :
    List (BinaryOp × Double) → Option Chain
  | [] => some ⟨x, []⟩
  | (op, y) :: rest =>
    if tier op then (op.applied? x y).map fun z => ⟨z, rest⟩
    else (reduceLeftmost? tier y rest).map fun chain => ⟨x, (op, chain.first) :: chain.rest⟩

/-- One operator is left fewer. -/
theorem length_of_reduceLeftmost? {tier : BinaryOp → Bool} {x : Double}
    {rest : List (BinaryOp × Double)} {chain : Chain}
    (hany : rest.any (tier ·.1) = true) (h : reduceLeftmost? tier x rest = some chain) :
    chain.rest.length < rest.length := by
  induction rest generalizing x chain with
  | nil => simp at hany
  | cons t rest ih =>
    obtain ⟨op, y⟩ := t
    rw [reduceLeftmost?] at h
    by_cases hop : tier op = true
    · rw [if_pos hop] at h
      obtain ⟨z, -, rfl⟩ := Option.map_eq_some_iff.1 h
      exact Nat.lt_succ_self _
    · rw [if_neg hop] at h
      obtain ⟨chain', hchain', rfl⟩ := Option.map_eq_some_iff.1 h
      have hlt := ih (by simpa [hop] using hany) hchain'
      exact Nat.succ_lt_succ hlt

/-- Applies the leftmost operator of a tier to its two neighbours until
none of the tier is left. -/
def reduceTier? (tier : BinaryOp → Bool) (chain : Chain) : Option Chain :=
  if _ : chain.rest.any (tier ·.1) = true then
    match _ : reduceLeftmost? tier chain.first chain.rest with
    | none => none
    | some chain' => reduceTier? tier chain'
  else some chain
termination_by chain.rest.length
decreasing_by exact length_of_reduceLeftmost? ‹_› ‹_›

/-- The value of tokens without groups. -/
def flatValue? (tokens : List TokenKind) : Option Double := do
  let chain ← operands? false tokens
  let chain ← reduceTier? BinaryOp.isProduct chain
  let chain ← reduceTier? BinaryOp.isSum chain
  if chain.rest = [] then some chain.first else none

/-- Tokens with a number in place of each group. The tokens before are
given last first; groups in them are open. -/
def ungrouped? (before : List TokenKind) : List TokenKind → Option (List TokenKind)
  | [] => some before.reverse
  | .rightParen :: ts =>
    match before.dropWhile (· != .leftParen) with
    | [] => none
    | _ :: outer => do
      let x ← flatValue? (before.takeWhile (· != .leftParen)).reverse
      ungrouped? (.number x :: outer) ts
  | t :: ts => ungrouped? (t :: before) ts

/-- The value of tokens by reduction. -/
def value? (tokens : List TokenKind) : Option Double := do
  let tokens ← ungrouped? [] tokens
  flatValue? tokens

/-! ## A tier in one pass -/

/-- Applies the operators of a tier in one pass from left to right. -/
def sweep? (tier : BinaryOp → Bool) (x : Double) : List (BinaryOp × Double) → Option Chain
  | [] => some ⟨x, []⟩
  | (op, y) :: rest =>
    if tier op then (op.applied? x y).bind fun z => sweep? tier z rest
    else (sweep? tier y rest).map fun chain => ⟨x, (op, chain.first) :: chain.rest⟩

variable {tier : BinaryOp → Bool} {op : BinaryOp} {x y : Double}
  {rest : List (BinaryOp × Double)}

theorem sweep?_cons_of_tier (hop : tier op = true) :
    sweep? tier x ((op, y) :: rest) = (op.applied? x y).bind fun z => sweep? tier z rest := by
  rw [sweep?, if_pos hop]

theorem sweep?_cons_of_not_tier (hop : tier op = false) :
    sweep? tier x ((op, y) :: rest) =
      (sweep? tier y rest).map fun chain => ⟨x, (op, chain.first) :: chain.rest⟩ := by
  rw [sweep?, if_neg (by simp [hop])]

theorem sweep?_eq_some (hnone : rest.any (tier ·.1) = false) :
    sweep? tier x rest = some ⟨x, rest⟩ := by
  induction rest generalizing x with
  | nil => rfl
  | cons t rest ih =>
    obtain ⟨op, y⟩ := t
    simp only [List.any_cons, Bool.or_eq_false_iff] at hnone
    rw [sweep?_cons_of_not_tier hnone.1, ih hnone.2]
    rfl

/-- The pass may begin with its first application. -/
theorem reduceLeftmost?_bind_sweep? (tier : BinaryOp → Bool) (x : Double)
    (rest : List (BinaryOp × Double)) :
    ((reduceLeftmost? tier x rest).bind fun chain => sweep? tier chain.first chain.rest) =
      sweep? tier x rest := by
  induction rest generalizing x with
  | nil => rfl
  | cons t rest ih =>
    obtain ⟨op, y⟩ := t
    rw [reduceLeftmost?]
    cases hop : tier op with
    | true =>
      rw [sweep?_cons_of_tier hop, if_pos rfl]
      cases op.applied? x y <;> rfl
    | false =>
      rw [sweep?_cons_of_not_tier hop, if_neg (by simp), ← ih y]
      cases reduceLeftmost? tier y rest with
      | none => rfl
      | some chain => exact sweep?_cons_of_not_tier hop

/-- **Applying the leftmost operator again and again is one pass from left
to right.** -/
theorem reduceTier?_eq_sweep? (tier : BinaryOp → Bool) (chain : Chain) :
    reduceTier? tier chain = sweep? tier chain.first chain.rest := by
  fun_induction reduceTier? tier chain with
  | case1 chain hany hreduce =>
    rw [← reduceLeftmost?_bind_sweep?, hreduce]
    rfl
  | case2 chain hany chain' hreduce ih =>
    rw [← reduceLeftmost?_bind_sweep?, hreduce]
    exact ih
  | case3 chain hany => rw [sweep?_eq_some (by simpa using hany)]

end Tiers

end Abacus
