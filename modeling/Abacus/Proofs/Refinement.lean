import Abacus.Proofs.Alike
import Abacus.Proofs.Precedence
import Abacus.Proofs.ZeroSigns

/-!
# Refinement

When a tree may stand in for another one: it has no more nodes, and where
the other has a value it has an equal one. A state of the machine may stand
in for another when its parts may, and then the same tokens lead both to
states of which this holds again. Groups that are open around an expression
do not matter to it, so a state may have more groups below.
-/

namespace Abacus.Expr

variable {maxDepth : Nat} {state state' next : State} {token token' : Token}
  {u u' w : List Token} {e e' l l' r r' : Expr} {below : List Open}

/-! ## Trees -/

/-- `e'` may stand in for `e`. -/
structure Refines (e e' : Expr) : Prop where
  size_le : e'.size ≤ e.size
  value : ∀ x, value? e = some x → ∃ y, value? e' = some y ∧ x.numEq y = true

theorem isFinite_of_value? {x : Double} (h : value? e = some x) : x.isFinite = true :=
  isFinite_of_value (value?_eq_some.1 h)

theorem Refines.literal (s s' : Span) (x : Double) : Refines (.literal s x) (.literal s' x) := by
  refine ⟨Nat.le_refl _, fun y hy => ⟨y, ?_, Double.numEq_refl (isFinite_of_value? hy)⟩⟩
  rw [value?_literal] at hy ⊢
  exact hy

theorem Refines.group (h : Refines e e') (s s' : Span) : Refines (.group s e) (.group s' e') :=
  ⟨Nat.succ_le_succ h.size_le, h.value⟩

theorem Refines.join (hl : Refines l l') (op : BinaryOp) (hr : Refines r r') :
    Refines (join l op r) (join l' op r') := by
  constructor
  · have hsizel := hl.size_le
    have hsizer := hr.size_le
    simp only [Expr.join, size]
    omega
  · intro z hz
    rw [Expr.join, value?_binary] at hz
    obtain ⟨x, hx, hz⟩ := Option.bind_eq_some_iff.1 hz
    obtain ⟨y, hy, hz⟩ := Option.bind_eq_some_iff.1 hz
    obtain ⟨x', hx', hxx'⟩ := hl.value x hx
    obtain ⟨y', hy', hyy'⟩ := hr.value y hy
    obtain ⟨z', hz', hzz'⟩ := BinaryOp.applied?_numEq (isFinite_of_value? hx)
      (isFinite_of_value? hy) hxx' hyy' hz
    exact ⟨z', by rw [Expr.join, value?_binary, hx', Option.bind_some, hy', Option.bind_some, hz'],
      hzz'⟩

/-- A run of signs negates, and costs a node, when it is odd. -/
theorem value?_signed (signs? : Option Signs) (e : Expr) :
    value? (signed signs? e) = (value? e).map (Double.negIf (oddSigns signs?)) := by
  rcases signs? with _ | ⟨start, _ | _⟩
  · exact (congrFun Option.map_id _).symm
  · show value? (e.withSpan _) = _
    rw [value?_withSpan]
    exact (congrFun Option.map_id _).symm
  · exact value?_negate _ e

theorem size_signed (signs? : Option Signs) (e : Expr) :
    (signed signs? e).size = e.size + (oddSigns signs?).toNat := by
  rcases signs? with _ | ⟨start, _ | _⟩
  · rfl
  · exact size_withSpan _ e
  · rfl

theorem Refines.signed (h : Refines e e') {signs? signs'? : Option Signs}
    (hsigns : oddSigns signs? = oddSigns signs'?) :
    Refines (signed signs? e) (signed signs'? e') := by
  constructor
  · rw [size_signed, size_signed, hsigns]
    exact Nat.add_le_add_right h.size_le _
  · intro z hz
    rw [value?_signed] at hz
    obtain ⟨x, hx, rfl⟩ := Option.map_eq_some_iff.1 hz
    obtain ⟨y, hy, hxy⟩ := h.value x hx
    refine ⟨y.negIf (oddSigns signs'?), by rw [value?_signed, hy, Option.map_some], ?_⟩
    rw [hsigns]
    exact Double.negIf_numEq (isFinite_of_value? hx) hxy _

/-! ## States -/

/-- The same operator waits, with a left operand that may stand in. -/
inductive WaitRefines : Option Waiting → Option Waiting → Prop
  | none : WaitRefines none none
  | some {l l' : Expr} (op : BinaryOp) (left : Refines l l') :
      WaitRefines (some ⟨l, op⟩) (some ⟨l', op⟩)

/-- What waits for the same operand. -/
structure PendingRefines (pending pending' : Pending) : Prop where
  sum : WaitRefines pending.sum? pending'.sum?
  product : WaitRefines pending.product? pending'.product?
  signs : oddSigns pending.signs? = oddSigns pending'.signs?
  fresh : pending = .none ↔ pending' = .none

/-- The same groups, in each of which what waits may stand in. -/
def GroupsRefine (groups groups' : List Open) : Prop :=
  List.Forall₂ (fun g g' => PendingRefines g.outer g'.outer) groups groups'

/-- The second state may stand in for the first, apart from the groups
`below` that are open around it. -/
inductive StateRefines (below : List Open) : State → State → Prop
  | needOperand {pending pending' : Pending} {groups groups' : List Open}
      (wait : PendingRefines pending pending') (rest : GroupsRefine groups groups') :
      StateRefines below (.needOperand pending groups) (.needOperand pending' (groups' ++ below))
  | haveTerm {sum? sum'? : Option Waiting} {term term' : Expr} {groups groups' : List Open}
      (sum : WaitRefines sum? sum'?) (term_refines : Refines term term')
      (rest : GroupsRefine groups groups') :
      StateRefines below (.haveTerm sum? term groups) (.haveTerm sum'? term' (groups' ++ below))

theorem WaitRefines.complete {waiting? waiting'? : Option Waiting}
    (h : WaitRefines waiting? waiting'?) (right : Refines e e') :
    Refines (complete waiting? e) (complete waiting'? e') := by
  cases h with
  | none => exact right
  | some op left => exact left.join op right

theorem PendingRefines.none : PendingRefines .none .none :=
  ⟨.none, .none, rfl, Iff.rfl⟩

theorem PendingRefines.addSign {pending pending' : Pending} (h : PendingRefines pending pending')
    (s s' : Span) (minus : Bool) :
    PendingRefines { pending with signs? := some (Expr.addSign pending.signs? s minus) }
      { pending' with signs? := some (Expr.addSign pending'.signs? s' minus) } := by
  refine ⟨h.sum, h.product, ?_, by simp [Pending.none]⟩
  rw [oddSigns_addSign, oddSigns_addSign, h.signs]

theorem StateRefines.start (below : List Open) :
    StateRefines below .start (.needOperand .none below) :=
  .needOperand .none .nil

/-- An operand whose signed form may stand in completes a state that may. -/
theorem StateRefines.ofOperand {pending pending' : Pending} {groups groups' : List Open}
    (sum : WaitRefines pending.sum? pending'.sum?)
    (product : WaitRefines pending.product? pending'.product?)
    (operand : Refines (signed pending.signs? e) (signed pending'.signs? e'))
    (rest : GroupsRefine groups groups') :
    StateRefines below (.ofOperand pending e groups) (.ofOperand pending' e' (groups' ++ below)) :=
  .haveTerm sum (product.complete operand) rest

/-! ## Moves -/

/-- A token moves a state to one state only. -/
theorem Moves.unique (h : Moves state token next) (h' : Moves state token state') :
    next = state' := by
  -- a depth that the open groups do not pass lets every move through
  have hpasses : state.opening? state.groups.length token = none := by
    cases h with
    | sum | product | closes => rfl
    | number | opens => exact State.opening?_eq_none (Nat.le_refl _) (by simp)
    | sign hsign =>
      exact State.opening?_eq_none (Nat.le_refl _) (TokenKind.ne_of_isSign hsign rfl)
  have hstep : step _ none state token = .ok next := step_eq_ok.2 ⟨hpasses, h⟩
  have hstep' : step _ none state token = .ok state' := step_eq_ok.2 ⟨hpasses, h'⟩
  exact Except.ok.inj (hstep.symm.trans hstep')

/-- **Where one state moves, the one that stands in for it moves too.** -/
theorem Moves.refines (move : Moves state token next) (h : StateRefines below state state')
    (hkind : token'.kind = token.kind) :
    ∃ next', Moves state' token' next' ∧ StateRefines below next next' := by
  obtain ⟨kind', s'⟩ := token'
  simp only at hkind
  subst hkind
  cases move with
  | number s x => cases h with
    | needOperand wait rest =>
      have operand := (Refines.literal s s' x).signed wait.signs
      exact ⟨_, .number s' x, .ofOperand wait.sum wait.product operand rest⟩
  | opens s => cases h with
    | needOperand wait rest => exact ⟨_, .opens s', .needOperand .none (.cons wait rest)⟩
  | sign hsign => cases h with
    | needOperand wait rest => exact ⟨_, .sign hsign, .needOperand (wait.addSign _ _ _) rest⟩
  | @sum _ _ _ _ op hop => cases h with
    | haveTerm sum term rest =>
      have wait : WaitRefines (some _) (some _) := .some op (sum.complete term)
      exact ⟨_, .sum hop, .needOperand ⟨wait, .none, rfl, by simp [Pending.none]⟩ rest⟩
  | @product _ _ _ _ op hop => cases h with
    | haveTerm sum term rest =>
      have wait : WaitRefines (some _) (some _) := .some op term
      exact ⟨_, .product hop, .needOperand ⟨sum, wait, rfl, by simp [Pending.none]⟩ rest⟩
  | @closes _ _ paren _ _ s => cases h with
    | haveTerm sum term rest => cases rest with
      | @cons _ g' _ _ wait rest =>
        have inner := (sum.complete term).group (paren.merge s) (g'.paren.merge s')
        have operand := inner.signed wait.signs
        exact ⟨_, .closes s', .ofOperand wait.sum wait.product operand rest⟩

theorem StateRefines.opening?_eq_none (h : StateRefines [] state state')
    (hkind : token.kind = .rightParen ↔ token'.kind = .rightParen)
    (passes : state.opening? maxDepth token = none) : state'.opening? maxDepth token' = none := by
  cases h with
  | haveTerm => rfl
  | @needOperand _ _ groups groups' wait rest =>
    have hlength : groups.length = (groups' ++ []).length := by
      rw [List.append_nil]
      exact rest.length_eq
    have hfound := opening?_congr maxDepth wait.fresh hlength hkind
    simp only [State.opening?] at passes ⊢
    rw [passes] at hfound
    exact Option.map_eq_none_iff.1 hfound.symm

/-! ## Walks -/

/-- **Whatever one state walks through, the one that stands in for it walks
through.** -/
theorem Walks.refines (walk : Walks maxDepth state u next) (h : StateRefines [] state state')
    (hkinds : u'.map Token.kind = u.map Token.kind) :
    ∃ next', Walks maxDepth state' u' next' ∧ StateRefines [] next next' := by
  induction walk generalizing state' u' with
  | nil =>
    rw [List.map_nil, List.map_eq_nil_iff] at hkinds
    subst hkinds
    exact ⟨state', .nil _, h⟩
  | cons passes move _ ih =>
    obtain ⟨t', ts', rfl, hkind, hkinds⟩ := List.map_eq_cons_iff.1 hkinds
    obtain ⟨mid', move', hmid⟩ := move.refines h hkind
    obtain ⟨next', walk', hnext⟩ := ih hmid hkinds
    exact ⟨next', .cons (h.opening?_eq_none (by rw [hkind]) passes) move' walk', hnext⟩

/-- Two states that walk through the same tokens stay such that one may
stand in for the other. -/
theorem Walks.refines_of_walks {maxDepth' : Nat} {next' : State}
    (walk : Walks maxDepth state u next) (walk' : Walks maxDepth' state' u' next')
    (h : StateRefines below state state') (hkinds : u'.map Token.kind = u.map Token.kind) :
    StateRefines below next next' := by
  induction walk generalizing state' u' with
  | nil =>
    rw [List.map_nil, List.map_eq_nil_iff] at hkinds
    subst hkinds
    cases walk'
    exact h
  | cons passes move _ ih =>
    obtain ⟨t', ts', rfl, hkind, hkinds⟩ := List.map_eq_cons_iff.1 hkinds
    cases walk' with
    | cons _ move' walk' =>
      obtain ⟨mid', move'', hmid⟩ := move.refines h hkind
      rw [move''.unique move'] at hmid
      exact ih walk' hmid hkinds

end Abacus.Expr
