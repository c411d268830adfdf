import Abacus.Proofs.Alike
import Abacus.Proofs.StepBudget

/-!
# SignRuns

A run of signs may be replaced by one sign. After an operand the first sign
of the run is the operator, and the others negate the first factor of the
term to its right; where the one sign is the operator there is nothing left
to negate, so the two trees differ in shape. The states after the run and
after the sign are alike, and that is enough.
-/

namespace Abacus.Expr

variable {maxDepth : Nat} {previous? : Option TokenKind} {token : Token}

/-! ## A run and a sign -/

/-- The operator that a sign is between terms. -/
def signOp (minus : Bool) : BinaryOp :=
  if minus then .sub else .add

/-- The signs that wait after a run. -/
def addSigns (signs? : Option Signs) (signs : List Token) : Option Signs :=
  signs.foldl (fun signs? t => some (addSign signs? t.span (t.kind == .minus))) signs?

theorem oddSigns_addSigns (signs? : Option Signs) (signs : List Token) :
    oddSigns (addSigns signs? signs) = (oddSigns signs? ^^ negates signs) := by
  induction signs generalizing signs? with
  | nil => exact (Bool.xor_false _).symm
  | cons t ts ih =>
    show oddSigns (addSigns (some _) ts) = _
    rw [ih, oddSigns_addSign, negates_cons, Bool.xor_assoc]

theorem ne_none_of_signs {sum? product? : Option Waiting} {signs : Signs} :
    (⟨sum?, product?, some signs⟩ : Pending) ≠ .none := by
  simp [Pending.none]

theorem step_sign {pending : Pending} {groups : List Open}
    (hopening : opening? maxDepth pending groups token = none)
    (hsign : token.kind.isSign = true) :
    step maxDepth previous? (.needOperand pending groups) token =
      .ok (.needOperand { pending with
        signs? := some (addSign pending.signs? token.span (token.kind == .minus)) } groups) :=
  step_eq_ok.2 ⟨hopening, .sign hsign⟩

theorem step_signOp {sum? : Option Waiting} {term : Expr} {groups : List Open}
    (hsign : token.kind.isSign = true) :
    step maxDepth previous? (.haveTerm sum? term groups) token =
      .ok (.needOperand
        ⟨some ⟨complete sum? term, signOp (token.kind == .minus)⟩, none, none⟩ groups) := by
  obtain ⟨kind, s⟩ := token
  cases kind with
  | plus => rfl
  | minus => rfl
  | _ => cases hsign

/-- Where the check finds nothing a run of signs only adds to the signs that
wait. -/
theorem readAfter_signs {signs : List Token} (pending : Pending) (groups : List Open)
    (hopening : ∀ t, opening? maxDepth pending groups t = none)
    (run : ∀ t ∈ signs, t.kind.isSign = true) (previous : Token) (rest : List Token) :
    ∃ previous', readAfter maxDepth previous (.needOperand pending groups) (signs ++ rest) =
      readAfter maxDepth previous'
        (.needOperand { pending with signs? := addSigns pending.signs? signs } groups) rest := by
  induction signs generalizing pending previous with
  | nil => exact ⟨previous, rfl⟩
  | cons t ts ih =>
    have hsign := run t (by simp)
    obtain ⟨previous', hread⟩ := ih
      { pending with signs? := some (addSign pending.signs? t.span (t.kind == .minus)) }
      (opening?_of_ne_none ne_none_of_signs groups) (fun x hx => run x (by simp [hx])) t
    refine ⟨previous', ?_⟩
    rw [List.cons_append, readAfter_cons _ _ (TokenKind.ne_of_isSign hsign rfl),
      step_sign (hopening t) hsign]
    exact hread

theorem isSome_addSigns (signs : Signs) (run : List Token) :
    (addSigns (some signs) run).isSome = true := by
  induction run generalizing signs with
  | nil => rfl
  | cons t ts ih => exact ih _

theorem PendingAlike.of_signs (sum? product? : Option Waiting) {signs? signs'? : Option Signs}
    (hodd : oddSigns signs? = oddSigns signs'?) (hsome : signs?.isSome = true)
    (hsome' : signs'?.isSome = true) :
    PendingAlike ⟨sum?, product?, signs?⟩ ⟨sum?, product?, signs'?⟩ := by
  obtain ⟨signs, rfl⟩ := Option.isSome_iff_exists.1 hsome
  obtain ⟨signs', rfl⟩ := Option.isSome_iff_exists.1 hsome'
  cases product? with
  | none =>
    refine .first (.refl sum?) ?_ (by simp [Pending.none])
    rw [hodd, Bool.xor_false]
  | some w => exact .later (.refl sum?) (by simp) (map_negIf_false _).symm hodd

theorem SumAlike.signOp (left : Expr) (minus flip : Bool) :
    SumAlike flip (some ⟨left, Expr.signOp minus⟩) (some ⟨left, Expr.signOp (minus ^^ flip)⟩) := by
  cases flip with
  | false =>
    rw [Bool.xor_false]
    exact .same rfl
  | true => cases minus <;> exact .opposite rfl rfl

theorem unbalanced?_signs (opened : List Span) {signs : List Token}
    (run : ∀ t ∈ signs, t.kind.isSign = true) (rest : List Token) :
    unbalanced? opened (signs ++ rest) = unbalanced? opened rest := by
  induction signs with
  | nil => rfl
  | cons t ts ih =>
    rw [List.cons_append,
      unbalanced?_of_turn_eq_zero opened _ (TokenKind.turn_of_isSign (run t (by simp)))]
    exact ih fun x hx => run x (by simp [hx])

section Collapse

variable {first sign : Token} {signs : List Token}
  (run : ∀ t ∈ first :: signs, t.kind.isSign = true) (hsign : sign.kind.isSign = true)
  (hparity : (sign.kind == .minus) = negates (first :: signs))
include run hsign hparity

omit run hsign in
/-- The same signs wait after the run and after the sign. -/
theorem PendingAlike.after_signs (pending : Pending) :
    PendingAlike { pending with signs? := addSigns pending.signs? (first :: signs) }
      { pending with
        signs? := some (Expr.addSign pending.signs? sign.span (sign.kind == .minus)) } := by
  refine .of_signs _ _ ?_ (isSome_addSigns _ signs) rfl
  rw [oddSigns_addSigns, oddSigns_addSign, hparity]

omit run hsign in
/-- After an operand the first sign is the operator, and the others wait;
where the one sign is the operator, no sign does. -/
theorem PendingAlike.after_operator (left : Expr) :
    PendingAlike ⟨some ⟨left, signOp (first.kind == .minus)⟩, none, addSigns none signs⟩
      ⟨some ⟨left, signOp (sign.kind == .minus)⟩, none, none⟩ := by
  have sum := SumAlike.signOp left (first.kind == .minus) (negates signs)
  rw [← negates_cons, ← hparity] at sum
  exact .first sum (oddSigns_addSigns none signs) (by simp [Pending.none])

/-- **From any state a run of signs leads where the one sign does.** -/
theorem readFrom_collapse (previous? : Option TokenKind) (state : State) (rest : List Token) :
    Agrees TreeAlike (readFrom maxDepth first (signs ++ rest) (step maxDepth previous? state first))
      (readFrom maxDepth sign rest (step maxDepth previous? state sign)) := by
  have hfirst := run first (by simp)
  have htail : ∀ t ∈ signs, t.kind.isSign = true := fun t ht => run t (by simp [ht])
  cases state with
  | needOperand pending groups =>
    have hkind : first.kind = .rightParen ↔ sign.kind = .rightParen :=
      iff_of_false (TokenKind.ne_of_isSign hfirst rfl) (TokenKind.ne_of_isSign hsign rfl)
    have hopening := opening?_alike maxDepth (.refl pending) (.refl groups) hkind
    cases hfault : opening? maxDepth pending groups first with
    | some f =>
      -- both signs stand in a group that is nested too deep
      rw [hfault] at hopening
      obtain ⟨f', hfault', hkind⟩ := Option.map_eq_some_iff.1 hopening.symm
      simp only [step, hfault, hfault']
      exact .error hkind.symm
    | none =>
      rw [hfault] at hopening
      rw [step_sign hfault hfirst, step_sign (Option.map_eq_none_iff.1 hopening.symm) hsign]
      obtain ⟨previous', hread⟩ := readAfter_signs
        { pending with signs? := some (addSign pending.signs? first.span (first.kind == .minus)) }
        groups (opening?_of_ne_none ne_none_of_signs groups) htail first rest
      simp only [readFrom]
      rw [hread]
      have wait := PendingAlike.after_signs hparity pending
      exact readAfter_alike _ _ (.needOperand wait (.refl groups)) rest
  | haveTerm sum? term groups =>
    rw [step_signOp hfirst, step_signOp hsign]
    obtain ⟨previous', hread⟩ := readAfter_signs
      ⟨some ⟨complete sum? term, signOp (first.kind == .minus)⟩, none, none⟩ groups
      (opening?_of_ne_none (by simp [Pending.none]) groups) htail first rest
    simp only [readFrom]
    rw [hread]
    have wait := PendingAlike.after_operator hparity (complete sum? term)
    exact readAfter_alike _ _ (.needOperand wait (.refl groups)) rest

theorem readAfter_collapse (previous : Token) (state : State) (u rest : List Token) :
    Agrees TreeAlike (readAfter maxDepth previous state (u ++ first :: (signs ++ rest)))
      (readAfter maxDepth previous state (u ++ sign :: rest)) := by
  induction u generalizing previous state with
  | nil =>
    rw [List.nil_append, List.nil_append,
      readAfter_cons _ _ (TokenKind.ne_of_isSign (run first (by simp)) rfl),
      readAfter_cons _ _ (TokenKind.ne_of_isSign hsign rfl)]
    exact readFrom_collapse run hsign hparity _ state rest
  | cons token u ih =>
    rw [List.cons_append, List.cons_append]
    by_cases hend : token.kind = .endOfInput
    · -- what comes after the end of the text is not read
      rw [readAfter, readAfter, if_pos hend, if_pos hend]
      exact .refl TreeAlike.refl _
    · rw [readAfter_cons _ _ hend, readAfter_cons _ _ hend]
      cases step maxDepth (some previous.kind) state token with
      | error f => exact .error rfl
      | ok next => exact ih token next

theorem read_collapse (u rest : List Token) :
    Agrees TreeAlike (read maxDepth (u ++ first :: (signs ++ rest)))
      (read maxDepth (u ++ sign :: rest)) :=
  .congr (read_agrees maxDepth sign _) (read_agrees maxDepth sign _)
    (readAfter_collapse run hsign hparity sign .start u rest)

omit hparity in
theorem unbalanced?_collapse (opened : List Span) (u rest : List Token) :
    unbalanced? opened (u ++ first :: (signs ++ rest)) =
      unbalanced? opened (u ++ sign :: rest) := by
  refine unbalanced?_append (fun opened => ?_) opened u
  rw [← List.cons_append, unbalanced?_signs opened run,
    unbalanced?_of_turn_eq_zero opened rest (TokenKind.turn_of_isSign hsign)]

theorem ofTokens_collapse {limits : Limits} (u rest : List Token)
    (hlength : (u ++ first :: (signs ++ rest)).length - 1 ≤ limits.clamped.maxTokens) :
    Agrees TreeAlike (ofTokens limits (u ++ first :: (signs ++ rest)))
      (ofTokens limits (u ++ sign :: rest)) := by
  have hlength' : (u ++ sign :: rest).length - 1 ≤ limits.clamped.maxTokens := by
    simp only [List.length_append, List.length_cons] at hlength ⊢
    omega
  rw [ofTokens, ofTokens, (tooLong?_eq_none _ _).2 hlength, (tooLong?_eq_none _ _).2 hlength',
    unbalanced?_collapse run hsign]
  cases unbalanced? [] (u ++ sign :: rest) with
  | some f => exact .error rfl
  | none => exact read_collapse run hsign hparity u rest

end Collapse

/-! ## What becomes of a list -/

/-- What becomes of a list of tokens, places apart: the kind of fault for
which it has no tree; or else the value of its tree on an unlimited meter,
or the kind of fault for which it has none. -/
def result (limits : Limits) (tokens : List Token) :
    Except FaultKind (Except FaultKind Double) :=
  ((ofTokens limits tokens).mapError Fault.kind).map fun e =>
    (Meter.evaluate ⟨0, Meter.unlimited⟩ e).1.mapError Fault.kind

theorem result_eq_of_agrees {limits : Limits} {tokens tokens' : List Token}
    (h : Agrees TreeAlike (ofTokens limits tokens) (ofTokens limits tokens')) :
    result limits tokens = result limits tokens' := by
  rw [result, result]
  generalize htree : ofTokens limits tokens = tree at h ⊢
  generalize htree' : ofTokens limits tokens' = tree' at h ⊢
  cases h with
  | error hkind => exact congrArg Except.error hkind
  | @ok e e' halike =>
    have hvalue : (value e).mapError Fault.kind = (value e').mapError Fault.kind := halike
    rw [← evaluate_unlimited htree, ← evaluate_unlimited htree'] at hvalue
    exact congrArg Except.ok hvalue

/-- **A run of signs and one sign for it come to the same**, wherever they
stand in a list within the limit: the one sign is `-` if the run holds an
odd number of `-`, and `+` otherwise. There is a tree for both or for
neither, with the same kind of fault; and the trees have the same value, or
none for the same kind of fault. -/
theorem result_collapse (limits : Limits) (u run v : List Token) (sign : Token)
    (hne : run ≠ []) (hrun : ∀ t ∈ run, t.kind.isSign = true)
    (hsign : sign.kind = if negates run then .minus else .plus)
    (hlength : (u ++ run ++ v).length - 1 ≤ limits.clamped.maxTokens) :
    result limits (u ++ run ++ v) = result limits (u ++ sign :: v) := by
  obtain ⟨first, signs, rfl⟩ := List.exists_cons_of_ne_nil hne
  have hisSign : sign.kind.isSign = true := by
    rw [hsign]
    cases negates (first :: signs) <;> rfl
  have hparity : (sign.kind == .minus) = negates (first :: signs) := by
    rw [hsign]
    cases negates (first :: signs) <;> rfl
  rw [List.append_assoc, List.cons_append] at hlength ⊢
  exact result_eq_of_agrees (ofTokens_collapse hrun hisSign hparity u v hlength)

/-- `3--2*4/5` comes to what `3+2*4/5` comes to. -/
theorem result_collapse_quotient :
    let token := fun kind col => Token.mk kind (.point ⟨1, col⟩)
    let number := fun n => TokenKind.number (.ofInt n)
    let u := [token (number 3) 1]
    let run := [token .minus 2, token .minus 3]
    let v := [token (number 2) 4, token .star 5, token (number 4) 6, token .slash 7,
      token (number 5) 8, token .endOfInput 9]
    result .standard (u ++ run ++ v) = result .standard (u ++ token .plus 2 :: v) := by
  intro token number u run v
  exact result_collapse .standard u run v (token .plus 2) (by simp [run]) (by decide)
    (by decide) (by decide)

end Abacus.Expr
