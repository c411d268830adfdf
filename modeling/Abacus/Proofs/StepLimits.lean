import Abacus.Proofs.StepBudget
import Mathlib.Data.List.Infix

/-!
# StepLimits

What a limit on steps does to an evaluation: nothing, or it ends it at a node
that is told by counting. The nodes of a tree have an order, in which an
evaluation comes to them; what it pays for is the beginning of this order, up
to the first node with a fault, and the limit is passed at the node of the
number of steps that were left. A meter goes on from one tree to the next
with the steps that were counted, also after a fault.
-/

namespace Abacus

namespace Expr

/-! ## The order of the nodes -/

/-- The nodes of a tree in the order of evaluation: a negation or a group
before its operand, an operator between its operands. -/
def inOrder : Expr → List Expr
  | literal span x => [literal span x]
  | negate span operand => negate span operand :: operand.inOrder
  | group span inner => group span inner :: inner.inOrder
  | binary span op left right => left.inOrder ++ binary span op left right :: right.inOrder

@[simp] theorem length_inOrder (e : Expr) : e.inOrder.length = e.size := by
  induction e with
  | literal => rfl
  | negate _ _ ih => rw [inOrder, List.length_cons, ih, size]
  | group _ _ ih => rw [inOrder, List.length_cons, ih, size]
  | binary _ _ _ _ ihl ihr =>
    rw [inOrder, List.length_append, List.length_cons, ihl, ihr, size, Nat.add_assoc]

/-- The number of nodes of several trees. -/
def sizes : List Expr → Nat
  | [] => 0
  | e :: es => e.size + sizes es

/-- **What is paid for is the beginning of the order**, all of it when the
tree has a value. -/
theorem visits_prefix (e : Expr) : e.visits <+: e.inOrder.map span := by
  induction e with
  | literal => exact List.prefix_rfl
  | negate s operand ih => exact List.cons_prefix_cons.2 ⟨rfl, ih⟩
  | group s inner ih => exact List.cons_prefix_cons.2 ⟨rfl, ih⟩
  | binary s op left right ihl ihr =>
    rw [visits, inOrder, List.map_append, List.map_cons]
    cases hleft : value left with
    | error fault => exact ihl.trans (List.prefix_append _ _)
    | ok x =>
      -- with a value the left operand is paid for in full
      have hall : visits left = left.inOrder.map span := by
        refine ihl.eq_of_length ?_
        rw [length_visits_of_value hleft, List.length_map, length_inOrder]
      rw [hall]
      exact (List.prefix_append_right_inj _).2 (List.cons_prefix_cons.2 ⟨rfl, ihr⟩)

theorem length_visits_pos (e : Expr) : 0 < e.visits.length := by
  induction e with
  | binary s op left right ihl _ =>
    rw [visits]
    cases value left with
    | error => exact ihl
    | ok => rw [List.length_append]; omega
  | _ => exact Nat.succ_pos _

/-- The node that is paid for at a step. -/
theorem exists_inOrder_of_visits {e : Expr} {s : Span} {i : Nat} (h : e.visits[i]? = some s) :
    ∃ node, e.inOrder[i]? = some node ∧ node.span = s := by
  obtain ⟨rest, hrest⟩ := e.visits_prefix
  have hlt := (List.getElem?_eq_some_iff.1 h).1
  have hmap : (e.inOrder.map span)[i]? = some s := by
    rw [← hrest, List.getElem?_append_left hlt, h]
  rw [List.getElem?_map] at hmap
  exact Option.map_eq_some_iff.1 hmap

end Expr

namespace Meter

open Abacus.Expr (inOrder visits value)

variable {m : Meter} {e : Expr} {x : Double}

/-! ## One tree -/

/-- **Every evaluation by its visits**: the limit is passed at one of them, or
it does not show. -/
theorem evaluate_eq (m : Meter) (e : Expr) :
    m.evaluate e =
      match Metered.pay m.limit m.steps (visits e) with
      | (some span, steps) => (.error ⟨.stepsExhausted m.limit, span⟩, ⟨steps, m.limit⟩)
      | (none, steps) => (value e, ⟨steps, m.limit⟩) := by
  have hrun := Expr.eval_spends m.limit e m.steps
  simp only [evaluate, hrun]
  rcases Metered.pay m.limit m.steps (visits e) with ⟨_ | span, steps⟩ <;> rfl

/-- With enough steps left the limit does not show. -/
theorem evaluate_of_le (h : m.steps.toNat + (visits e).length ≤ m.limit) :
    m.evaluate e = (value e, ⟨m.steps + UInt64.ofNat (visits e).length, m.limit⟩) := by
  rw [evaluate_eq, Metered.pay_of_le h]

/-- With too few the limit is passed at the node of the number of steps left,
if the counter gets there. -/
theorem exists_evaluate_of_lt (hcount : m.steps.toNat + (visits e).length < UInt64.size)
    (h : m.limit < m.steps.toNat + (visits e).length) :
    ∃ node, (inOrder e)[m.limit - m.steps.toNat]? = some node ∧
      m.evaluate e = (.error ⟨.stepsExhausted m.limit, node.span⟩,
        ⟨UInt64.ofNat (max m.steps.toNat m.limit + 1), m.limit⟩) := by
  have hpos := e.length_visits_pos
  have hvisit :=
    List.getElem?_eq_getElem (show m.limit - m.steps.toNat < (visits e).length by omega)
  obtain ⟨node, hnode, hspan⟩ := Expr.exists_inOrder_of_visits hvisit
  refine ⟨node, hnode, ?_⟩
  rw [evaluate_eq, Metered.pay_eq hcount, hvisit, hspan]

/-- An evaluation that succeeds has counted each node once. -/
theorem evaluate_eq_ok (h : (m.evaluate e).1 = .ok x) :
    value e = .ok x ∧ m.evaluate e = (.ok x, ⟨m.steps + UInt64.ofNat e.size, m.limit⟩) := by
  obtain ⟨hvalue, hsteps⟩ := Expr.run_eval_eq_ok_iff.1 h
  have hlength := Expr.length_visits_of_value hvalue
  have hnone := Metered.pay_eq_none_iff.2 (hlength ▸ hsteps)
  refine ⟨hvalue, ?_⟩
  rw [evaluate_eq, Metered.pay_of_none hnone, hvalue, hlength]

/-! ## Several trees -/

/-- Evaluates several trees on one meter, each with the steps that the ones
before it left behind. -/
def evaluateAll (m : Meter) : List Expr → List (Except Fault Double) × Meter
  | [] => ([], m)
  | e :: es =>
    let (result, m) := m.evaluate e
    let (results, m) := m.evaluateAll es
    (result :: results, m)

theorem evaluateAll_cons (m : Meter) (e : Expr) (es : List Expr) :
    m.evaluateAll (e :: es) =
      ((m.evaluate e).1 :: ((m.evaluate e).2.evaluateAll es).1,
        ((m.evaluate e).2.evaluateAll es).2) := rfl

/-- **A meter goes on** from some trees to others, whatever became of the
first ones. -/
theorem evaluateAll_append (m : Meter) (es es' : List Expr) :
    m.evaluateAll (es ++ es') =
      ((m.evaluateAll es).1 ++ ((m.evaluateAll es).2.evaluateAll es').1,
        ((m.evaluateAll es).2.evaluateAll es').2) := by
  induction es generalizing m with
  | nil => rfl
  | cons e es ih => rw [List.cons_append, evaluateAll_cons, evaluateAll_cons, ih, List.cons_append]

/-- Trees that all succeed are counted in full. -/
theorem evaluateAll_of_ok {es : List Expr} (h : ∀ r ∈ (m.evaluateAll es).1, ∃ x, r = .ok x) :
    (m.evaluateAll es).2 = ⟨m.steps + UInt64.ofNat (Expr.sizes es), m.limit⟩ := by
  induction es generalizing m with
  | nil => exact congrArg (Meter.mk · m.limit) (UInt64.add_zero _).symm
  | cons e es ih =>
    rw [evaluateAll_cons] at h ⊢
    rw [List.forall_mem_cons] at h
    obtain ⟨⟨x, hx⟩, hrest⟩ := h
    obtain ⟨-, heq⟩ := evaluate_eq_ok hx
    rw [ih hrest, heq, Expr.sizes, UInt64.ofNat_add, UInt64.add_assoc]

/-! ## Limits -/

/-- **A limit on steps truncates an evaluation and does nothing else.** Let
an evaluation that starts with `s` steps counted come to a result after `k`
more of them when there is no limit. Then `k` is no more than the number of
nodes, and just this number when there is a value. With a limit that leaves
room for `k` steps the result and the count are the same. With a lower one
the limit is passed at the node of the number of steps that were left, in
the order of evaluation, and one step past the limit is counted, or one
more than before if there were too many already. So trees that are evaluated
on one meter and all have values are counted in full; and after a fault the
next tree is evaluated with the steps that the fault left behind. -/
theorem evaluate_truncates :
    (∀ (e : Expr) (s : UInt64), s.toNat + e.size ≤ unlimited →
      ∃ result k, evaluate ⟨s, unlimited⟩ e = (result, ⟨s + UInt64.ofNat k, unlimited⟩) ∧
        k ≤ e.size ∧ (∀ x, result = .ok x → k = e.size) ∧
        ∀ limit,
          (s.toNat + k ≤ limit →
            evaluate ⟨s, limit⟩ e = (result, ⟨s + UInt64.ofNat k, limit⟩)) ∧
          (limit < s.toNat + k → ∃ node, (inOrder e)[limit - s.toNat]? = some node ∧
            evaluate ⟨s, limit⟩ e = (.error ⟨.stepsExhausted limit, node.span⟩,
              ⟨UInt64.ofNat (max s.toNat limit + 1), limit⟩))) ∧
    (∀ (m : Meter) (es : List Expr), (∀ r ∈ (m.evaluateAll es).1, ∃ x, r = .ok x) →
      (m.evaluateAll es).2 = ⟨m.steps + UInt64.ofNat (Expr.sizes es), m.limit⟩) ∧
    ∀ (m m' : Meter) (es es' : List Expr) (e : Expr) (fault : Fault),
      (m.evaluateAll es).2.evaluate e = (.error fault, m') →
        m.evaluateAll (es ++ e :: es') =
          ((m.evaluateAll es).1 ++ .error fault :: (m'.evaluateAll es').1,
            (m'.evaluateAll es').2) := by
  refine ⟨fun e s hsteps => ?_, fun m es h => evaluateAll_of_ok h, fun m m' es es' e fault h => ?_⟩
  · have hlength := Expr.length_visits_le e
    have hunlimited : s.toNat + (visits e).length ≤ unlimited := by omega
    refine ⟨value e, (visits e).length, evaluate_of_le hunlimited, hlength, ?_, fun limit => ?_⟩
    · intro x hx
      exact Expr.length_visits_of_value hx
    · refine ⟨fun h => evaluate_of_le h, fun h => ?_⟩
      exact exists_evaluate_of_lt (m := ⟨s, limit⟩) (Nat.lt_succ_of_le hunlimited) h
  · rw [evaluateAll_append, evaluateAll_cons, h]

/-- `1+2*-3` has six nodes, the third of which is the `2`. -/
theorem evaluate_truncates_product :
    let two := Expr.literal (.point ⟨1, 3⟩) (.ofInt 2)
    let three := Expr.literal (.point ⟨1, 6⟩) (.ofInt 3)
    let product := Expr.binary ⟨⟨1, 3⟩, ⟨1, 6⟩⟩ .mul two (.negate ⟨⟨1, 5⟩, ⟨1, 6⟩⟩ three)
    let e := Expr.binary ⟨⟨1, 1⟩, ⟨1, 6⟩⟩ .add (.literal (.point ⟨1, 1⟩) (.ofInt 1)) product
    (1 : UInt64).toNat + e.size ≤ unlimited ∧
      evaluate ⟨1, unlimited⟩ e = (.ok (.ofInt (-5)), ⟨7, unlimited⟩) ∧
      evaluate ⟨1, 7⟩ e = (.ok (.ofInt (-5)), ⟨7, 7⟩) ∧
      evaluate ⟨1, 3⟩ e = (.error ⟨.stepsExhausted 3, two.span⟩, ⟨4, 3⟩) ∧
      (evaluateAll ⟨1, 13⟩ [e, e]).2 = ⟨13, 13⟩ ∧
      evaluateAll ⟨1, 3⟩ [e, two] =
        (.error ⟨.stepsExhausted 3, two.span⟩ :: (evaluateAll ⟨4, 3⟩ [two]).1,
          (evaluateAll ⟨4, 3⟩ [two]).2) := by
  intro two three product e
  obtain ⟨hone, hall, hafter⟩ := evaluate_truncates
  have hsteps : (1 : UInt64).toNat + e.size ≤ unlimited := by decide
  obtain ⟨result, k, hfree, -, hcount, hlimit⟩ := hone e 1 hsteps
  have hvalue : evaluate ⟨1, unlimited⟩ e = (.ok (.ofInt (-5)), ⟨7, unlimited⟩) := by
    decide +kernel
  rw [hvalue, Prod.mk.injEq, Meter.mk.injEq] at hfree
  obtain ⟨rfl, -, -⟩ := hfree
  obtain rfl : k = 6 := hcount _ rfl
  obtain ⟨node, hnode, hpassed⟩ := (hlimit 3).2 (by decide)
  obtain rfl : two = node := Option.some.inj hnode
  have hboth : ∀ r ∈ (evaluateAll ⟨1, 13⟩ [e, e]).1, ∃ x, r = .ok x := by
    have hresults : (evaluateAll ⟨1, 13⟩ [e, e]).1 = [.ok (.ofInt (-5)), .ok (.ofInt (-5))] := by
      decide +kernel
    rw [hresults]
    simp
  exact ⟨hsteps, hvalue, (hlimit 7).1 (by decide), hpassed, hall _ _ hboth,
    hafter ⟨1, 3⟩ _ [] [two] e _ hpassed⟩

end Meter

end Abacus
