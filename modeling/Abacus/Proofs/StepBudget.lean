import Abacus.Proofs.Acceptance
import Abacus.Proofs.Evaluation
import Abacus.Proofs.Refusal
import Abacus.Proofs.Stages

/-!
# StepBudget

Each node of a tree is paid for by tokens of its own: a number by itself, a
negation by one of its signs, an operator by its token, and a group, which
counts twice, by its two parentheses. So a budget of one step for each
token is never used up.
-/

namespace Abacus

namespace Expr

/-- The number of groups of a tree. -/
def groups : Expr → Nat
  | literal .. => 0
  | negate _ operand => operand.groups
  | group _ inner => inner.groups + 1
  | binary _ _ left right => left.groups + right.groups

@[simp] theorem groups_withSpan (s : Span) (e : Expr) : (e.withSpan s).groups = e.groups := by
  cases e <;> rfl

/-- **The nodes, groups counted twice, are no more than the tokens.** -/
theorem Derives.size_add_groups_le {phrase : Phrase} {w : List Token} {e : Expr}
    (h : Derives phrase w e) : e.size + e.groups ≤ w.length := by
  induction h with
  | number => simp [size, groups]
  | group _ _ _ ih =>
    simp only [size, groups, List.length_append, List.length_cons, List.length_nil]
    omega
  | unsigned _ ih => exact ih
  | kept _ _ _ ih =>
    rw [size_withSpan, groups_withSpan, List.length_append]
    omega
  | negated _ _ _ ih =>
    -- the first sign of the run pays for the negation
    simp only [size, groups, List.length_append, List.length_cons]
    omega
  | factor _ ih => exact ih
  | product _ _ _ ihl ihr =>
    simp only [size, groups, List.length_append, List.length_cons]
    omega
  | term _ ih => exact ih
  | sum _ _ _ ihl ihr =>
    simp only [size, groups, List.length_append, List.length_cons]
    omega

/-- The tokens before the first end are no more than all but the last. -/
theorem length_beforeEnd_le {tokens : List Token} (hend : ∃ t ∈ tokens, t.kind = .endOfInput) :
    (beforeEnd tokens).length ≤ tokens.length - 1 := by
  obtain ⟨t, rest, -, heq⟩ := exists_eq_beforeEnd_append hend
  have hlength := congrArg List.length heq
  simp only [List.length_append, List.length_cons] at hlength
  omega

theorem size_add_groups_le_of_scan {limits : Limits} {text : List Char} {e : Expr}
    (h : ofTokens limits (Scan.ofText text).tokens = .ok e) :
    e.size + e.groups ≤ (Scan.ofText text).tokens.length - 1 :=
  Nat.le_trans (accepted_of_ofTokens h).derives.size_add_groups_le
    (length_beforeEnd_le (exists_end_scan text))

/-- A tree of a list of tokens, which is within the limits, has far fewer
nodes than there are steps to count. -/
theorem size_lt_of_ofTokens {limits : Limits} {tokens : List Token} {e : Expr}
    (h : ofTokens limits tokens = .ok e) : e.size < UInt64.size := by
  have haccepted := accepted_of_ofTokens h
  have hsize := haccepted.derives.size_add_groups_le
  have hshort := haccepted.short
  have hbefore : (beforeEnd tokens).length ≤ tokens.length :=
    (List.takeWhile_prefix _).length_le
  rw [show UInt64.size = 18446744073709551616 from rfl]
  omega

/-- With an unlimited meter a tree of a list of tokens, which is within the
limits, has its value. -/
theorem evaluate_unlimited {limits : Limits} {tokens : List Token} {e : Expr}
    (h : ofTokens limits tokens = .ok e) :
    (Meter.evaluate ⟨0, Meter.unlimited⟩ e).1 = e.value := by
  have hsize := size_lt_of_ofTokens h
  have hlimit : (0 : UInt64).toNat + e.size ≤ Meter.unlimited := by
    rw [UInt64.toNat_zero, Nat.zero_add]
    exact Nat.le_of_lt_succ hsize
  show ((e.eval Meter.unlimited).run.run 0).1 = e.value
  rw [run_eval_of_size_le hlimit]

/-- No more steps are counted than there are nodes. -/
theorem exists_steps (limit : Nat) (s : UInt64) (e : Expr) :
    ∃ k ≤ e.size, ((eval limit e).run.run s).2 = s + UInt64.ofNat k := by
  obtain ⟨k, hk, hpay⟩ := Metered.exists_count_of_pay limit s (visits e)
  refine ⟨k, Nat.le_trans hk (length_visits_le e), ?_⟩
  rw [eval_spends limit e s]
  rcases hvisits : Metered.pay limit s (visits e) with ⟨_ | span, s'⟩ <;>
    · rw [hvisits] at hpay
      exact hpay

/-- A tree that has a value is paid for in full. -/
theorem length_visits_of_value {e : Expr} {x : Double} (h : value e = .ok x) :
    (visits e).length = e.size := by
  induction e generalizing x with
  | literal => rfl
  | negate span operand ih =>
    obtain ⟨y, hy, -⟩ := value_negate_eq_ok.1 h
    rw [visits, size, List.length_cons, ih hy]
  | group span inner ih => rw [visits, size, List.length_cons, ih h]
  | binary span op left right ihl ihr =>
    obtain ⟨y, z, hy, hz, -⟩ := value_binary_eq_ok.1 h
    simp only [visits, size, hy, List.length_append, List.length_cons, ihl hy, ihr hz]
    omega

/-- A meter lets a value through exactly when no count up to that of the last
node is above its limit. -/
theorem run_eval_eq_ok_iff {limit : Nat} {s : UInt64} {e : Expr} {x : Double} :
    ((e.eval limit).run.run s).1 = .ok x ↔
      e.value = .ok x ∧ ∀ k < e.size, (s + UInt64.ofNat (k + 1)).toNat ≤ limit := by
  rw [eval_spends limit e s]
  constructor
  · intro h
    rcases hpay : Metered.pay limit s (visits e) with ⟨_ | span, s'⟩
    · rw [hpay] at h
      have hnone : (Metered.pay limit s (visits e)).1 = none := by rw [hpay]
      rw [Metered.pay_eq_none_iff, length_visits_of_value h] at hnone
      exact ⟨h, hnone⟩
    · rw [hpay] at h
      cases h
  · rintro ⟨hvalue, hsteps⟩
    have hnone : (Metered.pay limit s (visits e)).1 = none := by
      rw [Metered.pay_eq_none_iff, length_visits_of_value hvalue]
      exact hsteps
    rw [Metered.pay_of_none hnone, hvalue]

/-- From zero on, and with fewer nodes than the counter has values, that is a
step for each node. -/
theorem run_eval_zero_eq_ok_iff {limit : Nat} {e : Expr} {x : Double}
    (hsize : e.size < UInt64.size) :
    ((e.eval limit).run.run 0).1 = .ok x ↔ e.value = .ok x ∧ e.size ≤ limit := by
  have hcount : ∀ k < e.size, (0 + UInt64.ofNat (k + 1)).toNat = k + 1 := by
    intro k hk
    rw [UInt64.zero_add, UInt64.toNat_ofNat_of_lt' (Nat.lt_of_le_of_lt hk hsize)]
  have hpos := e.size_pos
  rw [run_eval_eq_ok_iff]
  refine and_congr_right fun _ => ⟨fun h => ?_, fun h k hk => ?_⟩
  · have hlast := h (e.size - 1) (by omega)
    rw [hcount _ (by omega)] at hlast
    omega
  · rw [hcount k hk]
    omega

end Expr

/-- **A calculation succeeds** when the scan finds no fault, the tokens have
a tree, the tree has a value, and a limit on steps, if there is one, allows
a step for each node. -/
theorem calculate_eq_ok_iff {limits : Limits} {text : List Char} {v : Number} :
    calculate limits text = .ok v ↔
      (Scan.ofText text).faults = [] ∧ ∃ e x,
        Expr.ofTokens limits (Scan.ofText text).tokens = .ok e ∧ e.value = .ok x ∧
        (∀ n, limits.stepLimit? = some n → e.size ≤ n) ∧ .ofDouble x = v := by
  -- the derived budget allows a step for each node anyway
  have hbudget : ∀ e, Expr.ofTokens limits (Scan.ofText text).tokens = .ok e →
      (e.size ≤ stepBudget limits text ↔ ∀ n, limits.stepLimit? = some n → e.size ≤ n) := by
    intro e htree
    have hsize := Expr.size_add_groups_le_of_scan htree
    rw [stepBudget]
    cases limits.stepLimit? with
    | none =>
      simp only [Option.getD_none, reduceCtorEq, false_implies, implies_true, iff_true]
      omega
    | some n => simp
  constructor
  · intro h
    have hclean : (Scan.ofText text).faults = [] := by
      unfold calculate at h
      cases hfaults : (Scan.ofText text).faults with
      | nil => rfl
      | cons first rest => simp [hfaults] at h
    refine ⟨hclean, ?_⟩
    rw [calculate_eq_valued hclean, valued] at h
    cases htree : Expr.ofTokens limits (Scan.ofText text).tokens with
    | error fault => simp [htree, Except.bind] at h
    | ok e =>
      cases hrun : ((e.eval (stepBudget limits text)).run.run 0).1 with
      | error fault => simp [htree, Except.bind, hrun] at h
      | ok x =>
        obtain ⟨hvalue, hsize⟩ :=
          (Expr.run_eval_zero_eq_ok_iff (Expr.size_lt_of_ofTokens htree)).1 hrun
        simp only [htree, Except.bind, hrun, Except.ok.injEq] at h
        exact ⟨e, x, rfl, hvalue, (hbudget e htree).1 hsize, h⟩
  · rintro ⟨hclean, e, x, htree, hvalue, hsteps, rfl⟩
    have hrun := (Expr.run_eval_zero_eq_ok_iff (Expr.size_lt_of_ofTokens htree)).2
      ⟨hvalue, (hbudget e htree).2 hsteps⟩
    simp only [calculate_eq_valued hclean, valued, htree, Except.bind, hrun]

/-- With a step for each token, a tree of the tokens of a text evaluates as
if there were no meter. -/
theorem Expr.run_eval_of_scan {limits : Limits} {text : List Char} {e : Expr}
    (h : Expr.ofTokens limits (Scan.ofText text).tokens = .ok e) :
    (e.eval (Scan.ofText text).tokens.length).run.run 0 =
      (e.value, UInt64.ofNat e.visits.length) := by
  have hsize := Expr.size_add_groups_le_of_scan h
  rw [Expr.run_eval_of_size_le (by rw [UInt64.toNat_zero]; omega), UInt64.zero_add]

/-- Without an explicit limit nothing that is wrong with a text is a lack
of steps. -/
theorem kind_ne_stepLimitExceeded {limits : Limits} (habsent : limits.stepLimit? = none)
    {text : List Char} {faults : Faults} (h : calculate limits text = .error faults) :
    ∀ f ∈ faults.toList, f.kind ≠ .stepLimitExceeded := by
  -- one stage found it, and only the last has a meter
  rcases calculate_eq_error h with hscan | ⟨fault, rfl, htree | ⟨e, htree, hvalue⟩⟩
  · intro f hf
    rcases Scan.fault_kind text f (hscan ▸ hf) with hkind | hkind <;> simp [hkind]
  · intro f hf
    obtain rfl : f = fault := by simpa [Faults.one, Faults.toList] using hf
    rcases Expr.ofTokens_error_kind htree with hkind | hkind | hkind | hkind <;> simp [hkind]
  · intro f hf
    obtain rfl : f = fault := by simpa [Faults.one, Faults.toList] using hf
    have hbudget : stepBudget limits text = (Scan.ofText text).tokens.length := by
      rw [stepBudget, habsent]
      rfl
    rw [hbudget, Expr.run_eval_of_scan htree] at hvalue
    rcases Expr.value_error_kind hvalue with hkind | hkind <;> simp [hkind]

/-- **The derived budget always suffices.** Without an explicit limit on
steps, no source is reported to need more of them. For every tree of its
tokens, of which there are `n`, the nodes and the groups together are at
most `n - 1`; an evaluation takes at most one step for each node, whatever
the limit and the steps taken before; so with a limit of `n` fewer than `n`
are taken, and what goes wrong, if anything, is something else. -/
theorem derived_budget_suffices (limits : Limits) (habsent : limits.stepLimit? = none)
    (source : Source) :
    let tokens := (Scan.ofText source.text).tokens
    (∀ d, evaluateSource source limits = .error d → d.kind ≠ .stepLimitExceeded) ∧
    (∀ log, source.calculate limits = .error log →
      ∀ d ∈ log.stored, d.kind ≠ .stepLimitExceeded) ∧
    ∀ e, Expr.ofTokens limits tokens = .ok e →
      e.size + e.groups ≤ tokens.length - 1 ∧
      (∀ limit s, ∃ k ≤ e.size, ((e.eval limit).run.run s).2 = s + UInt64.ofNat k) ∧
      ((e.eval tokens.length).run.run 0).2.toNat ≤ tokens.length - 1 ∧
      ∀ f, ((e.eval tokens.length).run.run 0).1 = .error f → f.kind ≠ .stepLimitExceeded := by
  intro tokens
  refine ⟨fun d hd => ?_, fun log hlog d hd => ?_, fun e h => ?_⟩
  · rw [evaluateSource_eq] at hd
    cases hcalculate : calculate limits source.text with
    | ok number => simp [hcalculate] at hd
    | error faults =>
      rw [hcalculate] at hd
      cases hd
      exact kind_ne_stepLimitExceeded habsent hcalculate _ List.mem_cons_self
  · obtain ⟨faults, hcalculate, rfl⟩ := Source.exists_faults_of_calculate hlog
    obtain ⟨f, hf, rfl⟩ := Faults.exists_of_mem_log hd
    exact kind_ne_stepLimitExceeded habsent hcalculate f hf
  · have hsize : e.size + e.groups ≤ tokens.length - 1 := Expr.size_add_groups_le_of_scan h
    refine ⟨hsize, fun limit s => e.exists_steps limit s, ?_, fun f hf => ?_⟩
    · obtain ⟨k, hk, hsteps⟩ := e.exists_steps tokens.length 0
      have hcount := Nat.mod_le k (2 ^ 64)
      rw [hsteps, UInt64.zero_add, UInt64.toNat_ofNat']
      omega
    rw [Expr.run_eval_of_scan h] at hf
    rcases Expr.value_error_kind hf with hkind | hkind <;> simp [hkind]

/-- A source that divides by zero has no explicit limit to run out of. -/
theorem derived_budget_suffices_division :
    Limits.standard.stepLimit? = none ∧
      ∀ d, evaluateSource (.ofText "-(1)/0") .standard = .error d →
        d.kind ≠ .stepLimitExceeded :=
  ⟨rfl, (derived_budget_suffices .standard rfl (.ofText "-(1)/0")).1⟩

end Abacus
