import Abacus.Proofs.Outcome
import Abacus.Proofs.Walk
import Mathlib.Data.List.Forall2

/-!
# Alike

States of the machine from which the same tokens come to the same outcome,
though the trees read so far may differ in shape. What waits in the one may
be a sum with the opposite operator, if the term to its right has the
opposite value. Like states are stepped to like states, and this lasts
until the sum is complete.
-/

namespace Abacus.Expr

variable {maxDepth : Nat} {state state' : State} {token : Token} {e e' : Expr}

/-! ## Like states -/

/-- Whether signs that may wait negate. -/
def oddSigns : Option Signs → Bool
  | none => false
  | some signs => signs.odd

theorem oddSigns_addSign (signs? : Option Signs) (s : Span) (minus : Bool) :
    oddSigns (some (addSign signs? s minus)) = (oddSigns signs? ^^ minus) := by
  cases signs? with
  | none => exact (Bool.false_xor minus).symm
  | some => rfl

theorem outcome_signed (signs? : Option Signs) (e : Expr) :
    outcome (signed signs? e) = (outcome e).map (Double.negIf (oddSigns signs?)) := by
  rcases signs? with _ | ⟨start, _ | _⟩
  · exact (map_negIf_false _).symm
  · show outcome (e.withSpan _) = (outcome e).map (Double.negIf false)
    rw [outcome_withSpan, map_negIf_false]
  · exact outcome_negate _ e

/-- Sums that wait for terms of the same value, or of opposite values. -/
inductive SumAlike : Bool → Option Waiting → Option Waiting → Prop
  | none : SumAlike false none none
  | same {l l' : Expr} {op : BinaryOp} (left : outcome l = outcome l') :
      SumAlike false (some ⟨l, op⟩) (some ⟨l', op⟩)
  | opposite {l l' : Expr} {op : BinaryOp} (tier : op.isSum = true)
      (left : outcome l = outcome l') : SumAlike true (some ⟨l, op⟩) (some ⟨l', op.opposite⟩)

/-- What waits for the same operand. The difference between the sums is
made up for by the signs of the first factor of a term, and after it by the
product so far. -/
inductive PendingAlike : Pending → Pending → Prop
  | first {flip : Bool} {sum? sum'? : Option Waiting} {signs? signs'? : Option Signs}
      (sum : SumAlike flip sum? sum'?) (signs : oddSigns signs? = (oddSigns signs'? ^^ flip))
      (fresh : (⟨sum?, none, signs?⟩ : Pending) = .none ↔
        (⟨sum'?, none, signs'?⟩ : Pending) = .none) :
      PendingAlike ⟨sum?, none, signs?⟩ ⟨sum'?, none, signs'?⟩
  | later {flip : Bool} {sum? sum'? : Option Waiting} {signs? signs'? : Option Signs}
      {l l' : Expr} {op : BinaryOp} (sum : SumAlike flip sum? sum'?)
      (tier : flip = true → op.isProduct = true)
      (left : outcome l = (outcome l').map (Double.negIf flip))
      (signs : oddSigns signs? = oddSigns signs'?) :
      PendingAlike ⟨sum?, some ⟨l, op⟩, signs?⟩ ⟨sum'?, some ⟨l', op⟩, signs'?⟩

/-- The same groups, with alike waiting for each. -/
def GroupsAlike (groups groups' : List Open) : Prop :=
  List.Forall₂ (fun g g' => PendingAlike g.outer g'.outer) groups groups'

/-- States that have the same outcome whatever comes. -/
inductive StateAlike : State → State → Prop
  | needOperand {pending pending' : Pending} {groups groups' : List Open}
      (wait : PendingAlike pending pending') (rest : GroupsAlike groups groups') :
      StateAlike (.needOperand pending groups) (.needOperand pending' groups')
  | haveTerm {flip : Bool} {sum? sum'? : Option Waiting} {term term' : Expr}
      {groups groups' : List Open} (sum : SumAlike flip sum? sum'?)
      (value : outcome term = (outcome term').map (Double.negIf flip))
      (rest : GroupsAlike groups groups') :
      StateAlike (.haveTerm sum? term groups) (.haveTerm sum'? term' groups')

theorem SumAlike.refl (sum? : Option Waiting) : SumAlike false sum? sum? := by
  cases sum? with
  | none => exact .none
  | some w => exact .same rfl

theorem PendingAlike.refl (pending : Pending) : PendingAlike pending pending := by
  obtain ⟨sum?, product?, signs?⟩ := pending
  cases product? with
  | none => exact .first (.refl sum?) (Bool.xor_false _).symm Iff.rfl
  | some w => exact .later (.refl sum?) (by simp) (map_negIf_false _).symm rfl

theorem GroupsAlike.refl (groups : List Open) : GroupsAlike groups groups := by
  induction groups with
  | nil => exact List.Forall₂.nil
  | cons g groups ih => exact List.Forall₂.cons (.refl g.outer) ih

/-! ## Completing sums and products -/

/-- A sum that is complete does not show the difference any more. -/
theorem SumAlike.complete {flip : Bool} {sum? sum'? : Option Waiting}
    (h : SumAlike flip sum? sum'?)
    (value : outcome e = (outcome e').map (Double.negIf flip)) :
    outcome (complete sum? e) = outcome (Expr.complete sum'? e') := by
  cases h with
  | none => rwa [map_negIf_false] at value
  | @same l l' op left =>
    rw [map_negIf_false] at value
    show outcome (join l op e) = outcome (join l' op e')
    rw [join, join, outcome_binary, outcome_binary, left, value]
  | opposite tier left => exact outcome_join_sum tier left value

/-- An operand completes like products to terms that differ as the sums
do. -/
theorem PendingAlike.complete {pending pending' : Pending} (h : PendingAlike pending pending')
    (operand : outcome e = outcome e') :
    ∃ flip, SumAlike flip pending.sum? pending'.sum? ∧
      outcome (Expr.complete pending.product? (signed pending.signs? e)) =
        (outcome (Expr.complete pending'.product? (signed pending'.signs? e'))).map
          (Double.negIf flip) := by
  cases h with
  | @first flip _ _ signs? signs'? sum signs fresh =>
    -- the signs make up for the sums: the operand takes the difference over
    refine ⟨flip, sum, ?_⟩
    show outcome (signed signs? e) = (outcome (signed signs'? e')).map _
    rw [outcome_signed, outcome_signed, map_negIf_negIf, operand, signs]
  | @later flip _ _ signs? signs'? _ _ _ sum tier left signs =>
    have right : outcome (signed signs? e) = outcome (signed signs'? e') := by
      rw [outcome_signed, outcome_signed, operand, signs]
    exact ⟨flip, sum, outcome_join_product tier left right⟩

theorem StateAlike.ofOperand {pending pending' : Pending} {groups groups' : List Open}
    (wait : PendingAlike pending pending') (operand : outcome e = outcome e')
    (rest : GroupsAlike groups groups') :
    StateAlike (.ofOperand pending e groups) (.ofOperand pending' e' groups') := by
  obtain ⟨flip, sum, value⟩ := wait.complete operand
  exact .haveTerm sum value rest

/-- One more sign for both. -/
theorem PendingAlike.addSign {pending pending' : Pending} (h : PendingAlike pending pending')
    (s s' : Span) (minus : Bool) :
    PendingAlike { pending with signs? := some (Expr.addSign pending.signs? s minus) }
      { pending' with signs? := some (Expr.addSign pending'.signs? s' minus) } := by
  cases h with
  | @first flip _ _ signs? signs'? sum signs fresh =>
    refine .first sum ?_ (by simp [Pending.none])
    rw [oddSigns_addSign, oddSigns_addSign, signs]
    cases oddSigns signs'? <;> cases flip <;> cases minus <;> rfl
  | later sum tier left signs =>
    refine .later sum tier left ?_
    rw [oddSigns_addSign, oddSigns_addSign, signs]

/-! ## Like results -/

/-- Trees with the same outcome. -/
def TreeAlike (e e' : Expr) : Prop :=
  outcome e = outcome e'

theorem TreeAlike.refl (e : Expr) : TreeAlike e e := rfl

/-- The check just after a `(` goes by how many groups are open, whether
something waits in the innermost, and whether the token is a `)`. -/
theorem opening?_congr (maxDepth : Nat) {pending pending' : Pending} {groups groups' : List Open}
    {token' : Token} (fresh : pending = .none ↔ pending' = .none)
    (hlength : groups.length = groups'.length)
    (hkind : token.kind = .rightParen ↔ token'.kind = .rightParen) :
    (opening? maxDepth pending groups token).map Fault.kind =
      (opening? maxDepth pending' groups' token').map Fault.kind := by
  cases groups with
  | nil =>
    rw [List.eq_nil_of_length_eq_zero hlength.symm]
    rfl
  | cons g groups => cases groups' with
    | nil => cases hlength
    | cons g' groups' =>
      by_cases hpending : pending = .none
      · have hpending' := fresh.1 hpending
        simp only [opening?, justOpened?, hpending, hpending', if_true, hkind, hlength]
        split
        · rfl
        · split <;> rfl
      · have hpending' := fun h => hpending (fresh.2 h)
        simp only [opening?, justOpened?, if_neg hpending, if_neg hpending']

/-- Once something waits the check just after a `(` finds nothing. -/
theorem opening?_of_ne_none {pending : Pending} (h : pending ≠ .none) (groups : List Open)
    (token : Token) : opening? maxDepth pending groups token = none := by
  cases groups with
  | nil => rfl
  | cons => simp only [opening?, justOpened?, if_neg h]

/-- It finds the same in like states, and for any two tokens that are not a
`)`. -/
theorem opening?_alike (maxDepth : Nat) {pending pending' : Pending}
    {groups groups' : List Open} {token' : Token} (wait : PendingAlike pending pending')
    (rest : GroupsAlike groups groups')
    (hkind : token.kind = .rightParen ↔ token'.kind = .rightParen) :
    (opening? maxDepth pending groups token).map Fault.kind =
      (opening? maxDepth pending' groups' token').map Fault.kind := by
  have fresh : pending = .none ↔ pending' = .none := by
    cases wait with
    | first _ _ fresh => exact fresh
    | later => simp [Pending.none]
  exact opening?_congr maxDepth fresh rest.length_eq hkind

/-- What agrees when the check finds nothing agrees after the check. -/
theorem Agrees.check {α : Type} {related : α → α → Prop} {result result' : Except Fault α}
    (found? found'? : Option Fault) (h : Agrees related result result') :
    found?.map Fault.kind = found'?.map Fault.kind → Agrees related
      (match found? with
        | some fault => .error fault
        | none => result)
      (match found'? with
        | some fault => .error fault
        | none => result') := by
  intro hfound
  cases found? with
  | none =>
    obtain rfl := Option.map_eq_none_iff.1 hfound.symm
    exact h
  | some f =>
    obtain ⟨f', rfl, hkind⟩ := Option.map_eq_some_iff.1 hfound.symm
    exact .error hkind.symm

/-- **Like states are stepped to like states**, or fail alike. -/
theorem step_alike (maxDepth : Nat) (previous? previous'? : Option TokenKind) (token : Token)
    (h : StateAlike state state') :
    Agrees StateAlike (step maxDepth previous? state token)
      (step maxDepth previous'? state' token) := by
  obtain ⟨kind, s⟩ := token
  cases h with
  | needOperand wait rest =>
    refine Agrees.check _ _ ?_ (opening?_alike maxDepth wait rest Iff.rfl)
    cases kind with
    | number x => exact .ok (.ofOperand wait rfl rest)
    | plus => exact .ok (.needOperand (wait.addSign s s false) rest)
    | minus => exact .ok (.needOperand (wait.addSign s s true) rest)
    | leftParen => exact .ok (.needOperand (.refl .none) (.cons wait rest))
    | _ => exact .error rfl
  | @haveTerm flip _ _ term term' _ _ sum value rest =>
    -- a sum or a `)` completes the sum, so the difference ends there
    have complete := sum.complete value
    have sumStep : ∀ op, StateAlike (.needOperand ⟨some ⟨Expr.complete _ term, op⟩, none, none⟩ _)
        (.needOperand ⟨some ⟨Expr.complete _ term', op⟩, none, none⟩ _) :=
      fun op => .needOperand (.first (.same complete) rfl (by simp [Pending.none])) rest
    have productStep : ∀ op : BinaryOp, op.isProduct = true →
        StateAlike (.needOperand ⟨_, some ⟨term, op⟩, none⟩ _)
          (.needOperand ⟨_, some ⟨term', op⟩, none⟩ _) :=
      fun op tier => .needOperand (.later sum (fun _ => tier) value rfl) rest
    cases kind with
    | plus => exact .ok (sumStep .add)
    | minus => exact .ok (sumStep .sub)
    | star => exact .ok (productStep .mul rfl)
    | slash => exact .ok (productStep .div rfl)
    | rightParen => cases rest with
      | nil => exact .error rfl
      | cons wait rest => exact .ok (.ofOperand wait complete rest)
    | _ => cases rest <;> exact .error rfl

theorem finish_alike (maxDepth : Nat) (previous? previous'? : Option TokenKind)
    (token : Token) (h : StateAlike state state') :
    Agrees TreeAlike (finish maxDepth previous? state token)
      (finish maxDepth previous'? state' token) := by
  cases h with
  | needOperand wait rest =>
    exact Agrees.check _ _ (.error rfl) (opening?_alike maxDepth wait rest Iff.rfl)
  | haveTerm sum value rest => cases rest with
    | nil => exact .ok (sum.complete value)
    | cons => exact .error rfl

theorem runOut_alike (token token' : Token) (h : StateAlike state state') :
    Agrees TreeAlike (runOut state token) (runOut state' token') := by
  cases h with
  | needOperand => exact .error rfl
  | haveTerm _ _ rest => cases rest <;> exact .error rfl

/-- Reading on after a step, if the step is not an error. -/
def readFrom (maxDepth : Nat) (token : Token) (rest : List Token) :
    Except Fault State → Except Fault Expr
  | .error fault => .error fault
  | .ok state => readAfter maxDepth token state rest

theorem readAfter_cons (previous : Token) (state : State) (hne : token.kind ≠ .endOfInput)
    (rest : List Token) :
    readAfter maxDepth previous state (token :: rest) =
      readFrom maxDepth token rest (step maxDepth (some previous.kind) state token) := by
  rw [readAfter, if_neg hne]
  rfl

theorem read_cons (hne : token.kind ≠ .endOfInput) (rest : List Token) :
    read maxDepth (token :: rest) =
      readFrom maxDepth token rest (step maxDepth none .start token) := by
  rw [read, if_neg hne]
  rfl

/-- Reading on from like states comes to the same. -/
theorem readAfter_alike (previous previous' : Token) (h : StateAlike state state')
    (tokens : List Token) :
    Agrees TreeAlike (readAfter maxDepth previous state tokens)
      (readAfter maxDepth previous' state' tokens) := by
  induction tokens generalizing previous previous' state state' with
  | nil => exact runOut_alike previous previous' h
  | cons token rest ih =>
    by_cases hend : token.kind = .endOfInput
    · rw [readAfter, readAfter, if_pos hend, if_pos hend]
      exact finish_alike maxDepth _ _ token h
    · rw [readAfter_cons _ _ hend, readAfter_cons _ _ hend]
      have hstep := step_alike maxDepth (some previous.kind) (some previous'.kind) token h
      generalize step maxDepth (some previous.kind) state token = next at hstep
      generalize step maxDepth (some previous'.kind) state' token = next' at hstep
      cases hstep with
      | error hkind => exact .error hkind
      | ok hnext => exact ih token token hnext

end Abacus.Expr
