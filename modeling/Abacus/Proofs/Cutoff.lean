import Abacus.Proofs.Alike
import Abacus.Proofs.StepBudget

/-!
# Cutoff

Limits only ever cut off. Two calculations of one text under a lower and a
higher limit go side by side, stage by stage, until the lower limit ends
the one of them; if it never does they come to the same. `CutShort` is this
relation between two results, and every stage keeps it.
-/

namespace Abacus

/-! ## Limits in order -/

/-- Whether a limit on steps is no higher than another. An absent one is
the highest. -/
def StepLimitLe (steps? steps'? : Option Nat) : Prop :=
  ∀ n', steps'? = some n' → ∃ n, steps? = some n ∧ n ≤ n'

/-- Limits in order, field by field. -/
structure Limits.Below (l l' : Limits) : Prop where
  depth : l.maxDepth ≤ l'.maxDepth
  tokens : l.maxTokens ≤ l'.maxTokens
  steps : StepLimitLe l.stepLimit? l'.stepLimit?

namespace Limits

instance : LE Limits := ⟨Below⟩

/-- The ceilings keep the order. -/
theorem Below.clamped_le {l l' : Limits} (h : l ≤ l') :
    l.clamped.maxDepth ≤ l'.clamped.maxDepth ∧ l.clamped.maxTokens ≤ l'.clamped.maxTokens := by
  have hdepth := h.depth
  have htokens := h.tokens
  simp only [clamped]
  omega

/-- The higher of two limits on steps. -/
def higherSteps (steps? steps'? : Option Nat) : Option Nat :=
  steps?.bind fun n => steps'?.map (max n)

/-- The least limits that are not below either of two. -/
def higher (l l' : Limits) : Limits :=
  ⟨max l.maxDepth l'.maxDepth, max l.maxTokens l'.maxTokens,
    higherSteps l.stepLimit? l'.stepLimit?⟩

theorem le_higher_left (l l' : Limits) : l ≤ l.higher l' := by
  refine ⟨Nat.le_max_left .., Nat.le_max_left .., fun n' h => ?_⟩
  obtain ⟨n, hn, hmap⟩ := Option.bind_eq_some_iff.1 h
  obtain ⟨m, -, rfl⟩ := Option.map_eq_some_iff.1 hmap
  exact ⟨n, hn, Nat.le_max_left ..⟩

theorem le_higher_right (l l' : Limits) : l' ≤ l.higher l' := by
  refine ⟨Nat.le_max_right .., Nat.le_max_right .., fun n' h => ?_⟩
  obtain ⟨n, -, hmap⟩ := Option.bind_eq_some_iff.1 h
  obtain ⟨m, hm, rfl⟩ := Option.map_eq_some_iff.1 hmap
  exact ⟨m, hm, Nat.le_max_right ..⟩

end Limits

/-! ## Results that a limit cuts short -/

/-- Whether a kind of fault is that a limit was passed. -/
def FaultKind.isCutOff : FaultKind → Bool
  | nestingTooDeep | expressionTooLong | stepLimitExceeded => true
  | _ => false

/-- Both results are the same, or a limit cuts the first one short. -/
inductive CutShort {α : Type} : Except Fault α → Except Fault α → Prop
  | same (result : Except Fault α) : CutShort result result
  | limit {fault : Fault} {result' : Except Fault α} (h : fault.kind.isCutOff = true) :
      CutShort (.error fault) result'

/-- What goes on from a result is cut short with it. -/
theorem CutShort.bind {α β : Type} {result result' : Except Fault α}
    {f f' : α → Except Fault β} (h : CutShort result result')
    (hf : ∀ a, result = .ok a → CutShort (f a) (f' a)) :
    CutShort (result.bind f) (result'.bind f') := by
  cases h with
  | limit hlimit => exact .limit hlimit
  | same => cases result with
    | error fault => exact .same _
    | ok a => exact hf a rfl

namespace Expr

variable {maxDepth maxDepth' : Nat} {tokens : List Token}

/-! ## The limit on nesting -/

theorem readFrom_eq_bind (token : Token) (rest : List Token) (next : Except Fault State) :
    readFrom maxDepth token rest next =
      next.bind fun state => readAfter maxDepth token state rest := by
  cases next <;> rfl

/-- A higher limit finds the same just after a `(`, unless the lower one is
passed there. -/
theorem opening?_eq_or_cutOff (hdepth : maxDepth ≤ maxDepth') (pending : Pending)
    (groups : List Open) (token : Token) :
    opening? maxDepth pending groups token = opening? maxDepth' pending groups token ∨
      ∃ fault, opening? maxDepth pending groups token = some fault ∧
        fault.kind.isCutOff = true := by
  cases hopened : justOpened? pending groups with
  | none => exact .inl (by simp [opening?, hopened])
  | some paren =>
    by_cases hkind : token.kind = .rightParen
    · exact .inl (by simp [opening?, hopened, hkind])
    · by_cases hdeep : maxDepth < groups.length
      · exact .inr
          ⟨⟨.nestedTooDeep maxDepth, paren⟩, by simp [opening?, hopened, hkind, hdeep], rfl⟩
      · have hdeep' : ¬ maxDepth' < groups.length := by omega
        exact .inl (by simp [opening?, hopened, hkind, hdeep, hdeep'])

/-- What comes after the check just after a `(` is cut short by it or is
the same. -/
theorem check_cutShort {α : Type} (hdepth : maxDepth ≤ maxDepth') (pending : Pending)
    (groups : List Open) (token : Token) (result : Except Fault α) :
    CutShort
      (match opening? maxDepth pending groups token with
        | some fault => .error fault
        | none => result)
      (match opening? maxDepth' pending groups token with
        | some fault => .error fault
        | none => result) := by
  rcases opening?_eq_or_cutOff hdepth pending groups token with heq | ⟨fault, hfault, hkind⟩
  · rw [heq]
    exact .same _
  · rw [hfault]
    exact .limit hkind

theorem step_cutShort (hdepth : maxDepth ≤ maxDepth') (previous? : Option TokenKind)
    (state : State) (token : Token) :
    CutShort (step maxDepth previous? state token) (step maxDepth' previous? state token) := by
  cases state with
  | needOperand pending groups => exact check_cutShort hdepth pending groups token _
  | haveTerm => exact .same _

theorem finish_cutShort (hdepth : maxDepth ≤ maxDepth') (previous? : Option TokenKind)
    (state : State) (token : Token) :
    CutShort (finish maxDepth previous? state token) (finish maxDepth' previous? state token) := by
  cases state with
  | needOperand pending groups => exact check_cutShort hdepth pending groups token _
  | haveTerm sum? term groups => cases groups <;> exact .same _

theorem readAfter_cutShort (hdepth : maxDepth ≤ maxDepth') (previous : Token) (state : State)
    (tokens : List Token) :
    CutShort (readAfter maxDepth previous state tokens)
      (readAfter maxDepth' previous state tokens) := by
  induction tokens generalizing previous state with
  | nil => exact .same _
  | cons token rest ih =>
    by_cases hend : token.kind = .endOfInput
    · rw [readAfter, readAfter, if_pos hend, if_pos hend]
      exact finish_cutShort hdepth _ state token
    · rw [readAfter_cons _ _ hend, readAfter_cons _ _ hend, readFrom_eq_bind, readFrom_eq_bind]
      exact (step_cutShort hdepth _ state token).bind fun next _ => ih token next

/-- **The limit on nesting only cuts off.** -/
theorem read_cutShort (hdepth : maxDepth ≤ maxDepth') (tokens : List Token) :
    CutShort (read maxDepth tokens) (read maxDepth' tokens) := by
  cases tokens with
  | nil => exact .same _
  | cons token rest =>
    by_cases hend : token.kind = .endOfInput
    · rw [read, read, if_pos hend, if_pos hend]
      exact .same _
    · rw [read_cons hend, read_cons hend, readFrom_eq_bind, readFrom_eq_bind]
      exact (step_cutShort hdepth none .start token).bind fun next _ =>
        readAfter_cutShort hdepth token next rest

/-! ## The limit on the number of tokens -/

theorem ofTokens_cutShort {limits limits' : Limits} (h : limits ≤ limits')
    (tokens : List Token) : CutShort (ofTokens limits tokens) (ofTokens limits' tokens) := by
  obtain ⟨hdepth, htokens⟩ := h.clamped_le
  unfold ofTokens
  cases hlong : tooLong? limits.clamped.maxTokens tokens with
  | some fault => exact .limit (by rw [tooLong?_kind hlong]; rfl)
  | none =>
    -- a list that the lower limit lets through is let through by the higher one
    have hshort := (tooLong?_eq_none _ _).1 hlong
    rw [(tooLong?_eq_none _ _).2 (Nat.le_trans hshort htokens)]
    cases unbalanced? [] tokens with
    | some fault => exact .same _
    | none => exact read_cutShort hdepth tokens

/-! ## The limit on steps -/

/-- A limit on steps is passed, or does not show. -/
theorem eval_cutShort_value (limit : Nat) (s : UInt64) (e : Expr) :
    CutShort ((e.eval limit).run.run s).1 e.value := by
  rw [eval_spends limit e s]
  rcases Metered.pay limit s (visits e) with ⟨_ | span, s'⟩
  · exact .same _
  · exact .limit rfl

/-- **The limit on steps only cuts off.** -/
theorem eval_cutShort {limit limit' : Nat} (h : limit ≤ limit') (s : UInt64) (e : Expr) :
    CutShort ((e.eval limit).run.run s).1 ((e.eval limit').run.run s).1 := by
  rw [eval_spends limit e s, eval_spends limit' e s]
  rcases hpay : Metered.pay limit s (visits e) with ⟨_ | span, s'⟩
  · have hnone : (Metered.pay limit s (visits e)).1 = none := by rw [hpay]
    -- no count is above the lower limit, and so none is above the higher one
    have hnone' := Metered.pay_eq_none_iff.2 fun k hk =>
      Nat.le_trans (Metered.pay_eq_none_iff.1 hnone k hk) h
    rw [Metered.pay_of_none hnone']
    exact .same _
  · exact .limit rfl

end Expr

/-- An absent limit on steps is never passed, so it cuts off no more than
any other. -/
theorem valued_cutShort {limits limits' : Limits} (h : limits ≤ limits') (text : List Char) :
    CutShort (valued limits (stepBudget limits text) (Scan.ofText text).tokens)
      (valued limits' (stepBudget limits' text) (Scan.ofText text).tokens) := by
  refine (Expr.ofTokens_cutShort h _).bind fun e htree => ?_
  cases habsent : limits'.stepLimit? with
  | none =>
    have hbudget : stepBudget limits' text = (Scan.ofText text).tokens.length := by
      rw [stepBudget, habsent]
      rfl
    rw [hbudget, Expr.run_eval_of_scan htree]
    exact Expr.eval_cutShort_value _ 0 e
  | some n' =>
    obtain ⟨n, hn, hle⟩ := h.steps n' habsent
    rw [stepBudget, stepBudget, hn, habsent]
    exact Expr.eval_cutShort hle 0 e

/-! ## Evaluation -/

/-- A limit has cut the evaluation short. -/
def IsCutOff (result : Except Diagnostic Number) : Prop :=
  ∃ d, result = .error d ∧ d.kind.isCutOff = true

/-- The same text under a lower and a higher limit: the lower one cuts it
off, or it does not show. -/
theorem evaluate_eq_or_isCutOff {limits limits' : Limits} (h : limits ≤ limits')
    (text : String) :
    evaluate text limits = evaluate text limits' ∨ IsCutOff (evaluate text limits) := by
  rw [evaluate, evaluate, evaluateSource_eq, evaluateSource_eq]
  generalize Source.ofText text = source
  cases hscan : (Scan.ofText source.text).faults with
  | cons first rest => exact .inl (by simp only [calculate, hscan])
  | nil =>
    rw [calculate_eq_valued hscan, calculate_eq_valued hscan]
    have hcut := valued_cutShort h source.text
    generalize valued limits _ _ = result at hcut
    generalize valued limits' _ _ = result' at hcut
    cases hcut with
    | same => exact .inl rfl
    | limit hlimit => exact .inr ⟨_, rfl, hlimit⟩

/-- **Limits only ever cut off.** Under a higher limit a text comes to the
same, unless the lower one cuts it off; so a success stays what it is, and
whatever the limits are, above the ceilings or below, two evaluations that
no limit cuts off agree in the number or in everything there is to say
about the error. -/
theorem evaluate_cutOff (text : String) :
    (∀ limits limits' : Limits, limits ≤ limits' →
      evaluate text limits = evaluate text limits' ∨ IsCutOff (evaluate text limits)) ∧
    (∀ limits limits' : Limits, limits ≤ limits' → ∀ v, evaluate text limits = .ok v →
      evaluate text limits' = .ok v) ∧
    ∀ limits limits' : Limits, ¬ IsCutOff (evaluate text limits) →
      ¬ IsCutOff (evaluate text limits') → evaluate text limits = evaluate text limits' := by
  refine ⟨fun _ _ h => evaluate_eq_or_isCutOff h text, fun limits limits' h v hv => ?_,
    fun limits limits' hfree hfree' => ?_⟩
  · rcases evaluate_eq_or_isCutOff h text with heq | ⟨d, hd, -⟩
    · rw [← heq, hv]
    · rw [hv] at hd
      cases hd
  · -- both agree with an evaluation under limits that are above both
    have hleft := evaluate_eq_or_isCutOff (limits.le_higher_left limits') text
    have hright := evaluate_eq_or_isCutOff (limits.le_higher_right limits') text
    rw [hleft.resolve_right hfree, hright.resolve_right hfree']

/-- `2-(3)` under limits that it just meets, under high ones and under
others. -/
theorem evaluate_cutOff_difference :
    let low : Limits := ⟨1, 5, some 4⟩
    let high : Limits := ⟨300, 2000000, none⟩
    let other : Limits := ⟨7, 6, some 9⟩
    low ≤ high ∧ evaluate "2-(3)" low = .ok (.integer (-1)) ∧
      evaluate "2-(3)" high = .ok (.integer (-1)) ∧
      evaluate "2-(3)" other = evaluate "2-(3)" low := by
  intro low high other
  have hle : low ≤ high := ⟨by decide, by decide, fun n' h => by cases h⟩
  have hlow : evaluate "2-(3)" low = .ok (.integer (-1)) := by decide +kernel
  have hother : evaluate "2-(3)" other = .ok (.integer (-1)) := by decide +kernel
  have hfree : ¬ IsCutOff (evaluate "2-(3)" low) := by
    rintro ⟨d, hd, -⟩
    rw [hlow] at hd
    cases hd
  have hfree' : ¬ IsCutOff (evaluate "2-(3)" other) := by
    rintro ⟨d, hd, -⟩
    rw [hother] at hd
    cases hd
  obtain ⟨-, hkept, hagree⟩ := evaluate_cutOff "2-(3)"
  exact ⟨hle, hlow, hkept low high hle _ hlow, hagree other low hfree' hfree⟩

end Abacus
