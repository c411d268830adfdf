import Abacus.Expr.Evaluate

/-!
# Evaluation

What an evaluation computes and what it costs, apart from the meter and
from the list of waiting operations. `value` is the value of a tree by
plain recursion, `visits` the nodes that are paid for on the way, in order,
up to the one that has a fault. A metered evaluation runs through its
visits and gives its value, unless the limit is passed at one of them
(`Spends`); this composes, so one statement per construct is enough.
-/

namespace Abacus

section MapError

variable {ε ε' α : Type} (f : ε → ε')

@[simp] theorem mapError_ok (a : α) : (Except.ok a : Except ε α).mapError f = .ok a := rfl

@[simp] theorem mapError_error (x : ε) :
    (Except.error x : Except ε α).mapError f = .error (f x) := rfl

end MapError

namespace BinaryOp

variable {op : BinaryOp} {x y z : Double} {cause : Cause}

/-- The result of an operator before it is checked. -/
def result : BinaryOp → Double → Double → Double
  | add => Double.add
  | sub => Double.sub
  | mul => Double.mul
  | div => Double.div

theorem apply_eq (op : BinaryOp) (x y : Double) :
    op.apply x y =
      if op = .div ∧ y.isZero = true then .error .zeroDivisor
      else if (op.result x y).isFinite = true then .ok (op.result x y)
      else .error (.resultTooLarge op) := by
  cases op <;> rfl

/-- An operator fails for a zero to its right or for the size of its
result. -/
theorem apply_error_kind (h : op.apply x y = .error cause) :
    cause.kind = .divisionByZero ∨ cause.kind = .numericOverflow := by
  rw [apply_eq] at h
  split at h
  · cases h
    exact .inl rfl
  · split at h <;> cases h
    exact .inr rfl

theorem isFinite_of_apply (h : op.apply x y = .ok z) : z.isFinite = true := by
  rw [apply_eq] at h
  split at h
  · cases h
  · split at h <;> cases h
    assumption

end BinaryOp

namespace Metered

variable {α β : Type} {limit : Nat} {s s' : UInt64} {visits visits' : List Span} {span : Span}

theorem run_bind_ok {m : Metered α} {a : α} (f : α → Metered β)
    (h : m.run.run s = (.ok a, s')) : (m >>= f).run.run s = (f a).run.run s' := by
  rw [ExceptT.run_bind, StateT.run_bind, h]
  rfl

theorem run_bind_error {m : Metered α} {fault : Fault} (f : α → Metered β)
    (h : m.run.run s = (.error fault, s')) : (m >>= f).run.run s = (.error fault, s') := by
  rw [ExceptT.run_bind, StateT.run_bind, h]
  rfl

/-! ## Paying for visits -/

theorem add_one_add_ofNat (s : UInt64) (k : Nat) :
    s + 1 + UInt64.ofNat k = s + UInt64.ofNat (k + 1) := by
  rw [Nat.add_comm, UInt64.ofNat_add, ← UInt64.add_assoc]
  rfl

/-- Pays one step at each visit. If the limit is passed at one of them, that
is where the paying stops; in any case there is the count it comes to. -/
def pay (limit : Nat) (s : UInt64) : List Span → Option Span × UInt64
  | [] => (none, s)
  | span :: visits => if limit < (s + 1).toNat then (some span, s + 1) else pay limit (s + 1) visits

/-- The visits after some others are paid for after them. -/
theorem pay_append_of_some (h : pay limit s visits = (some span, s')) :
    pay limit s (visits ++ visits') = (some span, s') := by
  induction visits generalizing s with
  | nil => cases h
  | cons visit visits ih =>
    rw [pay] at h
    rw [List.cons_append, pay]
    split
    · rwa [if_pos ‹_›] at h
    · rw [if_neg ‹_›] at h
      exact ih h

theorem pay_append_of_none (h : pay limit s visits = (none, s')) :
    pay limit s (visits ++ visits') = pay limit s' visits' := by
  induction visits generalizing s with
  | nil =>
    cases h
    rfl
  | cons visit visits ih =>
    rw [pay] at h
    rw [List.cons_append, pay]
    split
    · rw [if_pos ‹_›] at h
      cases h
    · rw [if_neg ‹_›] at h
      exact ih h

theorem mem_of_pay (h : (pay limit s visits).1 = some span) : span ∈ visits := by
  induction visits generalizing s with
  | nil => cases h
  | cons visit visits ih =>
    rw [pay] at h
    split at h
    · exact Option.some.inj h ▸ List.mem_cons_self
    · exact List.mem_cons_of_mem _ (ih h)

/-- Where the nodes stand does not matter to the meter. -/
theorem pay_map (f : Span → Span) (limit : Nat) (s : UInt64) (visits : List Span) :
    pay limit s (visits.map f) = (pay limit s visits).map (Option.map f) id := by
  induction visits generalizing s with
  | nil => rfl
  | cons visit visits ih =>
    rw [List.map_cons, pay, pay]
    split
    · rfl
    · exact ih _

/-- Every step that is paid for is counted, past the last value of the
counter too. -/
theorem exists_count_of_pay (limit : Nat) (s : UInt64) (visits : List Span) :
    ∃ k ≤ visits.length, (pay limit s visits).2 = s + UInt64.ofNat k := by
  induction visits generalizing s with
  | nil => exact ⟨0, Nat.le_refl 0, (UInt64.add_zero s).symm⟩
  | cons visit visits ih =>
    rw [pay]
    split
    · exact ⟨1, Nat.le_add_left 1 _, rfl⟩
    · obtain ⟨k, hk, hpay⟩ := ih (s + 1)
      refine ⟨k + 1, Nat.succ_le_succ hk, ?_⟩
      rw [hpay, add_one_add_ofNat]

/-- All visits are paid for when no count on the way is above the limit. -/
theorem pay_eq_none_iff : (pay limit s visits).1 = none ↔
    ∀ k < visits.length, (s + UInt64.ofNat (k + 1)).toNat ≤ limit := by
  induction visits generalizing s with
  | nil => simp [pay]
  | cons visit visits ih =>
    rw [pay]
    split
    · rename_i hpassed
      constructor
      · intro h
        cases h
      · intro h
        exact absurd (h 0 (Nat.succ_pos _)) (Nat.not_le.2 hpassed)
    · rename_i hwithin
      rw [ih]
      constructor
      · intro h k hk
        cases k with
        | zero => exact Nat.not_lt.1 hwithin
        | succ k => exact add_one_add_ofNat s (k + 1) ▸ h k (Nat.lt_of_succ_lt_succ hk)
      · intro h k hk
        exact (add_one_add_ofNat s (k + 1)).symm ▸ h (k + 1) (Nat.succ_lt_succ hk)

/-- The count that all visits come to. -/
theorem pay_of_none (h : (pay limit s visits).1 = none) :
    pay limit s visits = (none, s + UInt64.ofNat visits.length) := by
  induction visits generalizing s with
  | nil => exact Prod.ext rfl (UInt64.add_zero s).symm
  | cons visit visits ih =>
    rw [pay] at h ⊢
    split
    · rw [if_pos ‹_›] at h
      cases h
    · rw [if_neg ‹_›] at h
      rw [ih h, List.length_cons, add_one_add_ofNat]

/-- As long as the counter does not pass its last value, the limit is passed
at the visit of the number of steps that were left, counted from zero. -/
theorem pay_eq (h : s.toNat + visits.length < UInt64.size) :
    pay limit s visits =
      match visits[limit - s.toNat]? with
      | some span => (some span, UInt64.ofNat (max s.toNat limit + 1))
      | none => (none, s + UInt64.ofNat visits.length) := by
  induction visits generalizing s with
  | nil => exact Prod.ext rfl (UInt64.add_zero s).symm
  | cons visit visits ih =>
    rw [List.length_cons] at h
    have hnext : (s + 1).toNat = s.toNat + 1 := by
      rw [UInt64.toNat_add]
      exact Nat.mod_eq_of_lt (Nat.lt_of_le_of_lt (Nat.add_le_add_left (by simp) _) h)
    rw [pay, hnext]
    by_cases hpassed : limit < s.toNat + 1
    · have hcount : s + 1 = UInt64.ofNat (s.toNat + 1) := by
        rw [← hnext, UInt64.ofNat_toNat]
      rw [if_pos hpassed, show limit - s.toNat = 0 by omega,
        show max s.toNat limit = s.toNat by omega, hcount]
      rfl
    · rw [if_neg hpassed, ih (by omega), hnext,
        show limit - s.toNat = limit - (s.toNat + 1) + 1 by omega, List.getElem?_cons_succ,
        show max (s.toNat + 1) limit = max s.toNat limit by omega]
      cases visits[limit - (s.toNat + 1)]? with
      | some span => rfl
      | none => exact Prod.ext rfl (add_one_add_ofNat s visits.length)

/-- With a step left for each visit they are all paid for. -/
theorem pay_of_le (h : s.toNat + visits.length ≤ limit) :
    pay limit s visits = (none, s + UInt64.ofNat visits.length) := by
  refine pay_of_none (pay_eq_none_iff.2 fun k hk => ?_)
  rw [UInt64.toNat_add, UInt64.toNat_ofNat']
  have hle := Nat.mod_le (s.toNat + (k + 1) % 2 ^ 64) (2 ^ 64)
  have hle' := Nat.mod_le (k + 1) (2 ^ 64)
  omega

/-- A computation pays for each visit and then ends in a result, unless the
limit is passed at one of the visits. -/
def Spends (limit : Nat) (m : Metered α) (visits : List Span) (result : Except Fault α) :
    Prop :=
  ∀ s, m.run.run s =
    match pay limit s visits with
    | (some span, s') => (.error ⟨.stepsExhausted limit, span⟩, s')
    | (none, s') => (result, s')

theorem spends_tick (limit : Nat) (span : Span) :
    Spends limit (tick limit span) [span] (.ok ()) := by
  intro s
  have hrun : (tick limit span).run.run s =
      (if limit < (s + 1).toNat then throw ⟨.stepsExhausted limit, span⟩ else pure () :
        Metered Unit).run.run (s + 1) := rfl
  rw [hrun, pay]
  by_cases h : limit < (s + 1).toNat
  · rw [if_pos h, if_pos h]
    rfl
  · rw [if_neg h, if_neg h]
    rfl

theorem spends_pure (limit : Nat) (a : α) : Spends limit (pure a) [] (.ok a) :=
  fun _ => rfl

theorem spends_ofResult (limit : Nat) (span : Span) (result : Except Cause α) :
    Spends limit (ofResult span result) [] (result.mapError fun cause => ⟨cause, span⟩) := by
  intro s
  cases result <;> rfl

/-- What comes after a computation that succeeds is paid for after it. -/
theorem Spends.bind {m : Metered α} {a : α} {f : α → Metered β} {result : Except Fault β}
    (h : Spends limit m visits (.ok a)) (h' : Spends limit (f a) visits' result) :
    Spends limit (m >>= f) (visits ++ visits') result := by
  intro s
  have hs := h s
  -- the limit is passed within the first computation, or it is left behind
  rcases hpay : pay limit s visits with ⟨_ | span, s'⟩
  · rw [hpay] at hs
    rw [run_bind_ok f hs, h', pay_append_of_none hpay]
  · rw [hpay] at hs
    rw [run_bind_error f hs, pay_append_of_some hpay]

/-- Nothing comes after a computation that fails. -/
theorem Spends.bind_error {m : Metered α} {fault : Fault} {f : α → Metered β}
    (h : Spends limit m visits (.error fault)) :
    Spends limit (m >>= f) visits (.error fault) := by
  intro s
  have hs := h s
  rcases hpay : pay limit s visits with ⟨_ | span, s'⟩
  · rw [hpay] at hs
    rw [run_bind_error f hs]
  · rw [hpay] at hs
    rw [run_bind_error f hs]

end Metered

namespace Expr

variable {limit : Nat} {e : Expr}

/-- The value of a tree without a meter, or the first fault. -/
def value : Expr → Except Fault Double
  | literal span x => (literalValue x).mapError fun cause => ⟨cause, span⟩
  | negate _ operand => (value operand).map Double.neg
  | group _ inner => value inner
  | binary span op left right => do
    let x ← value left
    let y ← value right
    (op.apply x y).mapError fun cause => ⟨cause, span⟩

/-- The places of the nodes that are paid for, in order: all of them, or
those up to the one with the first fault. An operator is paid for between
its operands. -/
def visits : Expr → List Span
  | literal span _ => [span]
  | negate span operand => span :: visits operand
  | group span inner => span :: visits inner
  | binary span _ left right =>
    match value left with
    | .ok _ => visits left ++ span :: visits right
    | .error _ => visits left

/-- Evaluation by plain recursion on a meter. -/
def direct (limit : Nat) : Expr → Metered Double
  | literal span x => do
    Metered.tick limit span
    Metered.ofResult span (literalValue x)
  | negate span operand => do
    Metered.tick limit span
    let x ← direct limit operand
    return x.neg
  | group span inner => do
    Metered.tick limit span
    direct limit inner
  | binary span op left right => do
    let x ← direct limit left
    Metered.tick limit span
    let y ← direct limit right
    Metered.ofResult span (op.apply x y)

/-! ## Values -/

theorem value_literal_eq_ok {span : Span} {x y : Double} :
    value (literal span x) = .ok y ↔ x.isFinite = true ∧ x = y := by
  rw [value, literalValue]
  split <;> simp_all

theorem value_negate_eq_ok {span : Span} {y : Double} :
    value (negate span e) = .ok y ↔ ∃ x, value e = .ok x ∧ x.neg = y := by
  rw [value]
  cases value e <;> simp [Except.map]

theorem value_binary_eq_ok {span : Span} {op : BinaryOp} {left right : Expr} {z : Double} :
    value (binary span op left right) = .ok z ↔
      ∃ x y, value left = .ok x ∧ value right = .ok y ∧ op.apply x y = .ok z := by
  rw [value]
  cases value left with
  | error => simp [Bind.bind, Except.bind]
  | ok x => cases value right with
    | error => simp [Bind.bind, Except.bind]
    | ok y => cases happly : op.apply x y <;>
        simp [Bind.bind, Except.bind, happly]

theorem value_binary_eq_error {span : Span} {op : BinaryOp} {left right : Expr}
    {fault : Fault} (h : value (binary span op left right) = .error fault) :
    value left = .error fault ∨ value right = .error fault ∨
      ∃ x y cause, value left = .ok x ∧ value right = .ok y ∧ op.apply x y = .error cause ∧
        fault = ⟨cause, span⟩ := by
  rw [value] at h
  cases hleft : value left with
  | error fault' =>
    rw [hleft] at h
    cases h
    exact .inl rfl
  | ok x => cases hright : value right with
    | error fault' =>
      rw [hleft, hright] at h
      cases h
      exact .inr (.inl rfl)
    | ok y =>
      rw [hleft, hright] at h
      cases happly : op.apply x y with
      | ok z => simp [Bind.bind, Except.bind, happly] at h
      | error cause =>
        simp only [Bind.bind, Except.bind, happly, mapError_error, Except.error.injEq] at h
        exact .inr (.inr ⟨x, y, cause, rfl, rfl, happly, h.symm⟩)

theorem isFinite_of_value {x : Double} (h : value e = .ok x) : x.isFinite = true := by
  induction e generalizing x with
  | literal span y =>
    obtain ⟨hfinite, rfl⟩ := value_literal_eq_ok.1 h
    exact hfinite
  | negate span operand ih =>
    obtain ⟨y, hvalue, rfl⟩ := value_negate_eq_ok.1 h
    rw [Double.isFinite_neg]
    exact ih hvalue
  | group span inner ih => exact ih h
  | binary span op left right _ _ =>
    obtain ⟨y, z, -, -, happly⟩ := value_binary_eq_ok.1 h
    exact BinaryOp.isFinite_of_apply happly

/-- A tree has no value for what its numbers do. -/
theorem value_error_kind {fault : Fault} (h : value e = .error fault) :
    fault.kind = .divisionByZero ∨ fault.kind = .numericOverflow := by
  induction e with
  | literal span x =>
    rw [value, literalValue] at h
    split at h <;> cases h
    exact .inr rfl
  | negate span operand ih =>
    rw [value] at h
    cases hvalue : value operand with
    | error fault' => rw [hvalue] at h; cases h; exact ih hvalue
    | ok x => rw [hvalue] at h; cases h
  | group span inner ih => exact ih h
  | binary span op left right ihl ihr =>
    rcases value_binary_eq_error h with hleft | hright | ⟨x, y, cause, -, -, happly, rfl⟩
    · exact ihl hleft
    · exact ihr hright
    · exact BinaryOp.apply_error_kind happly

/-! ## The list of waiting operations -/

@[simp] theorem finishChain_nil (x : Double) : finishChain [] x = pure x := rfl

theorem finishChain_cons (operation : Operation) (operations : List Operation) (x : Double) :
    finishChain (operation :: operations) x = operation x >>= finishChain operations := rfl

/-- **Following the left side of a chain is plain recursion**: the waiting
operations are done on the value of the tree. -/
theorem evalThen_eq (limit : Nat) (e : Expr) (waiting : List Operation) :
    evalThen limit e waiting = direct limit e >>= finishChain waiting := by
  induction e generalizing waiting with
  | literal span x => simp [evalThen, direct]
  | negate span operand ih => simp [evalThen, direct, ih]
  | group span inner ih => simp [evalThen, direct, ih]
  | binary span op left right ihl ihr =>
    -- the operation waits in front of the list while the left side is done
    rw [evalThen, ihl]
    simp only [direct, bind_assoc]
    congr 1
    funext x
    simp [finishChain_cons, ihr]

/-! ## What an evaluation spends -/

theorem direct_spends (limit : Nat) (e : Expr) :
    Metered.Spends limit (direct limit e) (visits e) (value e) := by
  induction e with
  | literal span x =>
    exact (Metered.spends_tick limit span).bind (Metered.spends_ofResult limit span _)
  | negate span operand ih =>
    refine (Metered.spends_tick limit span).bind ?_
    rw [value]
    cases hvalue : value operand with
    | error fault =>
      rw [hvalue] at ih
      exact ih.bind_error
    | ok x =>
      rw [hvalue] at ih
      have hbind := ih.bind (f := fun x => pure x.neg) (Metered.spends_pure limit x.neg)
      rwa [List.append_nil] at hbind
  | group span inner ih => exact (Metered.spends_tick limit span).bind ih
  | binary span op left right ihl ihr =>
    rw [value, visits]
    cases hleft : value left with
    | error fault =>
      rw [hleft] at ihl
      exact ihl.bind_error
    | ok x =>
      rw [hleft] at ihl
      refine ihl.bind ((Metered.spends_tick limit span).bind ?_)
      cases hright : value right with
      | error fault =>
        rw [hright] at ihr
        exact ihr.bind_error
      | ok y =>
        rw [hright] at ihr
        have hbind := ihr.bind (f := fun y => Metered.ofResult span (op.apply x y))
          (Metered.spends_ofResult limit span _)
        rwa [List.append_nil] at hbind

/-- **What an evaluation spends, and what it gives.** -/
theorem eval_spends (limit : Nat) (e : Expr) :
    Metered.Spends limit (eval limit e) (visits e) (value e) := by
  have heval : eval limit e = direct limit e := by
    rw [eval, evalThen_eq]
    exact bind_pure _
  rw [heval]
  exact direct_spends limit e

/-- **At most one step for each node.** -/
theorem length_visits_le (e : Expr) : (visits e).length ≤ e.size := by
  induction e with
  | literal => simp [visits, size]
  | negate _ _ ih => simpa [visits, size] using ih
  | group _ _ ih => simpa [visits, size] using ih
  | binary _ _ left _ ihl ihr =>
    rw [visits, size]
    cases value left with
    | ok => simp only [List.length_append, List.length_cons]; omega
    | error => exact Nat.le_trans ihl (by omega)

/-- With a step for each node left, the meter does not show. -/
theorem run_eval_of_size_le {s : UInt64} (h : s.toNat + e.size ≤ limit) :
    (eval limit e).run.run s = (value e, s + UInt64.ofNat (visits e).length) := by
  have hlength := length_visits_le e
  rw [eval_spends limit e s, Metered.pay_of_le (by omega)]

end Expr

end Abacus
