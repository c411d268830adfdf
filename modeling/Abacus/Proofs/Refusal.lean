import Abacus.Proofs.Acceptance

/-!
# Refusal

Which kinds of fault each stage can find. A scan blames characters and
runs; the checks on the whole list blame length and balance; reading blames
the grammar or the nesting. None of them blames the steps: that is left to
the meter.
-/

namespace Abacus

/-! ## Scanning -/

/-- What is bad about a lexeme is a character or a run of digits and
points. -/
theorem Lexeme.ofRun_bad_kind {run : List Char} {cause : Cause} (h : ofRun run = bad cause) :
    cause.kind = .invalidCharacter ∨ cause.kind = .malformedExpression := by
  cases run with
  | nil => simp [ofRun] at h
  | cons c cs =>
    simp only [ofRun] at h
    split at h
    · simp at h
    · split at h
      · unfold ofNumeral at h
        split at h
        · simp at h
        · cases h
          exact .inr rfl
      · unfold ofSymbol at h
        split at h <;> first | (cases h; exact .inl rfl) | simp at h

theorem Scan.collect_fault_kind (room : Nat) (p : Position) (runs : List (List Char)) :
    ∀ f ∈ (collect room p [] [] runs).faults,
      f.kind = .invalidCharacter ∨ f.kind = .malformedExpression := by
  induction runs generalizing room p with
  | nil => simp [collect, finish]
  | cons run rest ih =>
    by_cases hblank : Lexeme.ofRun run = .blank
    · rw [collect_blank hblank]
      exact ih room _
    · cases room with
      | zero =>
        rw [collect_full hblank]
        simp [finish]
      | succ room => cases hrun : Lexeme.ofRun run with
        | blank => exact absurd hrun hblank
        | token kind =>
          rw [collect_token hrun, collect_eq]
          simpa using ih (room + 1) (p.after run)
        | bad cause =>
          rw [collect_bad hrun, collect_eq]
          intro f hf
          rcases List.mem_append.1 hf with hf | hf
          · rw [List.reverse_singleton, List.mem_singleton] at hf
            subst hf
            exact Lexeme.ofRun_bad_kind hrun
          · exact ih room _ f hf

/-- **A scan blames characters and runs of digits and points.** -/
theorem Scan.fault_kind (text : List Char) :
    ∀ f ∈ (ofText text).faults, f.kind = .invalidCharacter ∨ f.kind = .malformedExpression :=
  collect_fault_kind maxFaults .origin (Lexeme.runs text)

/-! ## Reading -/

namespace Expr

variable {maxDepth : Nat} {previous? : Option TokenKind} {state : State} {token : Token}
  {tokens : List Token} {fault : Fault} {limits : Limits}

theorem opening?_kind {pending : Pending} {groups : List Open}
    (h : opening? maxDepth pending groups token = some fault) :
    fault.kind = .malformedExpression ∨ fault.kind = .nestingTooDeep := by
  unfold opening? at h
  split at h
  · simp at h
  · split at h
    · cases h
      exact .inl rfl
    · split at h
      · cases h
        exact .inr rfl
      · simp at h

theorem step_error_kind (h : step maxDepth previous? state token = .error fault) :
    fault.kind = .malformedExpression ∨ fault.kind = .nestingTooDeep := by
  obtain ⟨kind, s⟩ := token
  cases state with
  | needOperand pending groups =>
    simp only [step] at h
    cases hopening : opening? maxDepth pending groups ⟨kind, s⟩ with
    | some fault' =>
      rw [hopening] at h
      cases h
      exact opening?_kind hopening
    | none =>
      rw [hopening] at h
      cases kind <;> cases h <;> exact .inl rfl
  | haveTerm sum? term groups =>
    left
    simp only [step] at h
    cases kind <;> cases groups <;> cases h <;> rfl

theorem finish_error_kind (h : finish maxDepth previous? state token = .error fault) :
    fault.kind = .malformedExpression ∨ fault.kind = .nestingTooDeep := by
  cases state with
  | needOperand pending groups =>
    simp only [finish] at h
    cases hopening : opening? maxDepth pending groups token with
    | some fault' =>
      rw [hopening] at h
      cases h
      exact opening?_kind hopening
    | none =>
      rw [hopening] at h
      cases h
      exact .inl rfl
  | haveTerm sum? term groups => cases groups with
    | nil => cases h
    | cons =>
      cases h
      exact .inl rfl

theorem runOut_error_kind (h : runOut state token = .error fault) :
    fault.kind = .malformedExpression := by
  cases state with
  | needOperand => cases h; rfl
  | haveTerm _ _ groups => cases groups <;> cases h <;> rfl

theorem readAfter_error_kind (previous : Token)
    (h : readAfter maxDepth previous state tokens = .error fault) :
    fault.kind = .malformedExpression ∨ fault.kind = .nestingTooDeep := by
  induction tokens generalizing previous state with
  | nil => exact .inl (runOut_error_kind h)
  | cons token rest ih =>
    rw [readAfter] at h
    by_cases hend : token.kind = .endOfInput
    · rw [if_pos hend] at h
      exact finish_error_kind h
    · rw [if_neg hend] at h
      cases hstep : step maxDepth (some previous.kind) state token with
      | error fault' =>
        rw [hstep] at h
        cases h
        exact step_error_kind hstep
      | ok next =>
        rw [hstep] at h
        exact ih token h

/-- Reading blames the grammar or the nesting. -/
theorem read_error_kind (h : read maxDepth tokens = .error fault) :
    fault.kind = .malformedExpression ∨ fault.kind = .nestingTooDeep := by
  have hagrees := read_agrees maxDepth ⟨.endOfInput, fault.span⟩ tokens
  rw [h] at hagrees
  generalize hread : readAfter maxDepth _ .start tokens = result at hagrees
  cases hagrees with
  | error hkind =>
    rw [hkind]
    exact readAfter_error_kind _ hread

theorem tooLong?_kind {maxTokens : Nat} (h : tooLong? maxTokens tokens = some fault) :
    fault.kind = .expressionTooLong := by
  unfold tooLong? at h
  simp only [] at h
  split at h
  · simp at h
  · obtain ⟨t, -, rfl⟩ := Option.map_eq_some_iff.1 h
    rfl

theorem unbalanced?_kind {opened : List Span} (h : unbalanced? opened tokens = some fault) :
    fault.kind = .unbalancedParentheses := by
  induction tokens generalizing opened with
  | nil =>
    obtain ⟨s, -, rfl⟩ := Option.map_eq_some_iff.1 h
    rfl
  | cons t ts ih =>
    unfold unbalanced? at h
    split at h
    · exact ih h
    · cases h
      rfl
    · exact ih h
    · exact ih h

/-- **What keeps a list of tokens from having a tree** is its length, its
balance, the grammar or the nesting. -/
theorem ofTokens_error_kind (h : ofTokens limits tokens = .error fault) :
    fault.kind = .expressionTooLong ∨ fault.kind = .unbalancedParentheses ∨
      fault.kind = .malformedExpression ∨ fault.kind = .nestingTooDeep := by
  rcases cases_of_ofTokens_error h with hlong | hbalance | hread
  · exact .inl (tooLong?_kind hlong)
  · exact .inr (.inl (unbalanced?_kind hbalance))
  · exact .inr (.inr (read_error_kind hread))

end Expr

end Abacus
