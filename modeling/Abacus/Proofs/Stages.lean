import Abacus.Calculation
import Abacus.Proofs.Evaluation

/-!
# Stages

A calculation by its stages, with faults in place of what a source makes of
them: what is wrong is what the first stage that fails finds, and there is
always something. So no log that ends a calculation is empty, and nothing is
ever said in place of an error that is missing. Every way in makes something
of this one calculation.
-/

namespace Abacus

variable {limits : Limits} {text : List Char}

/-- The number a text stands for, or the faults that are found in it. -/
def calculate (limits : Limits) (text : List Char) : Except Faults Number :=
  let scan := Scan.ofText text
  match scan.faults with
  | first :: rest => .error ⟨first, rest⟩
  | [] =>
    match Expr.ofTokens limits scan.tokens with
    | .error fault => .error (.one fault)
    | .ok expr =>
      let limit := limits.stepLimit?.getD scan.tokens.length
      match ((expr.eval limit).run.run 0).1 with
      | .error fault => .error (.one fault)
      | .ok value => .ok (.ofDouble value)

/-- Faults as a log. -/
def Faults.log (source : Source) (faults : Faults) : DiagnosticLog :=
  source.logOf faults.toList

/-- The number of steps a calculation may take. -/
def stepBudget (limits : Limits) (text : List Char) : Nat :=
  limits.stepLimit?.getD (Scan.ofText text).tokens.length

/-- What is wrong is all that the scan finds, or else why there is no tree,
or else why the tree has no value within the budget. -/
theorem calculate_eq_error {faults : Faults} (h : calculate limits text = .error faults) :
    (Scan.ofText text).faults = faults.toList ∨
      ∃ fault, faults = .one fault ∧
        (Expr.ofTokens limits (Scan.ofText text).tokens = .error fault ∨
          ∃ e, Expr.ofTokens limits (Scan.ofText text).tokens = .ok e ∧
            ((e.eval (stepBudget limits text)).run.run 0).1 = .error fault) := by
  unfold calculate at h
  simp only [] at h
  cases hscan : (Scan.ofText text).faults with
  | cons first rest =>
    rw [hscan] at h
    cases h
    exact .inl rfl
  | nil =>
    rw [hscan] at h
    right
    cases htree : Expr.ofTokens limits (Scan.ofText text).tokens with
    | error fault =>
      rw [htree] at h
      cases h
      exact ⟨fault, rfl, .inl rfl⟩
    | ok e =>
      rw [htree] at h
      cases hvalue : ((e.eval (stepBudget limits text)).run.run 0).1 with
      | ok x =>
        rw [stepBudget] at hvalue
        simp [hvalue] at h
      | error fault =>
        refine ⟨fault, ?_, .inr ⟨e, rfl, hvalue⟩⟩
        rw [stepBudget] at hvalue
        simpa [hvalue] using h.symm

/-- The value of a list of tokens within limits and a budget, before it is
narrowed, or why it has none. -/
def valued (limits : Limits) (budget : Nat) (tokens : List Token) : Except Fault Double :=
  (Expr.ofTokens limits tokens).bind fun e => ((e.eval budget).run.run 0).1

/-- Where the scan finds nothing wrong, a calculation is the value of the
tokens. -/
theorem calculate_eq_valued (h : (Scan.ofText text).faults = []) :
    calculate limits text =
      match valued limits (stepBudget limits text) (Scan.ofText text).tokens with
      | .error fault => .error (.one fault)
      | .ok x => .ok (.ofDouble x) := by
  unfold calculate valued
  simp only [h]
  cases Expr.ofTokens limits (Scan.ofText text).tokens <;> rfl

/-! ## Faults in a source -/

namespace Source

/-- A log of faults keeps the first ones and counts all. -/
theorem logOf_eq (source : Source) (faults : List Fault) :
    source.logOf faults =
      ⟨(faults.map (Fault.diagnose source)).take DiagnosticLog.capacity, faults.length⟩ := by
  rw [logOf, DiagnosticLog.ofList_eq, List.length_map]

theorem hasErrors_logOf (source : Source) (faults : List Fault) :
    (source.logOf faults).hasErrors = true ↔ faults ≠ [] := by
  rw [logOf_eq, DiagnosticLog.hasErrors, decide_eq_true_eq, List.length_pos_iff]

/-- Reading gives a tree exactly when it reports no error, so that there is
always one to give back. -/
theorem exprOf_parse (source : Source) (limits : Limits) (tokens : List Token) :
    source.exprOf (source.parse limits tokens) =
      (Expr.ofTokens limits tokens).mapError fun fault => .single (fault.diagnose source) := by
  unfold exprOf parse
  cases Expr.ofTokens limits tokens <;> rfl

/-- A calculation in a source is the calculation on its text, with the
faults as a log. -/
theorem calculate_eq (source : Source) (limits : Limits) :
    source.calculate limits =
      (Abacus.calculate limits source.text).mapError (Faults.log source) := by
  unfold calculate Abacus.calculate
  simp only [exprOf_parse, Expr.ofTokens_clamped]
  cases hfaults : (Scan.ofText source.text).faults with
  | cons first rest =>
    rw [if_pos ((source.hasErrors_logOf _).2 (List.cons_ne_nil _ _))]
    rfl
  | nil =>
    rw [if_neg (fun h => (source.hasErrors_logOf _).1 h rfl)]
    cases Expr.ofTokens limits (Scan.ofText source.text).tokens with
    | error fault => rfl
    | ok e =>
      simp only [mapError_ok, Limits.clamped, Bind.bind, Except.bind]
      cases ((e.eval _).run.run 0).1 <;> rfl

end Source

/-- What ends a calculation in a source is a log of the faults in its text. -/
theorem Source.exists_faults_of_calculate {source : Source} {log : DiagnosticLog}
    (h : source.calculate limits = .error log) :
    ∃ faults, Abacus.calculate limits source.text = .error faults ∧ faults.log source = log := by
  rw [calculate_eq] at h
  cases hcalculate : Abacus.calculate limits source.text with
  | ok v =>
    rw [hcalculate] at h
    cases h
  | error faults =>
    rw [hcalculate] at h
    cases h
    exact ⟨faults, rfl, rfl⟩

/-- A log of faults keeps diagnostics of them only. -/
theorem Faults.exists_of_mem_log {source : Source} {faults : Faults} {d : Diagnostic}
    (h : d ∈ (faults.log source).stored) : ∃ f ∈ faults.toList, f.diagnose source = d := by
  rw [log, Source.logOf_eq] at h
  exact List.mem_map.1 (List.mem_of_mem_take h)

/-- The first fault is always there to be told of. -/
theorem Faults.first?_log (source : Source) (faults : Faults) :
    (faults.log source).first? = some (faults.first.diagnose source) := by
  rw [log, Source.logOf_eq]
  rfl

/-! ## Ways in -/

section WaysIn

theorem evaluateSource_eq (source : Source) (limits : Limits) :
    evaluateSource source limits =
      (calculate limits source.text).mapError fun faults => faults.first.diagnose source := by
  rw [evaluateSource, source.calculate_eq]
  cases calculate limits source.text with
  | ok v => rfl
  | error faults =>
    show Except.error (((faults.log source).first?).getD _) = _
    rw [faults.first?_log]
    rfl

variable {text : String} {v : Number} {faults : Faults}

/-- A text evaluates to the number its calculation gives. -/
theorem evaluate_eq_ok_iff :
    evaluate text limits = .ok v ↔ calculate limits text.toList = .ok v := by
  rw [evaluate, evaluateSource_eq]
  show (calculate limits text.toList).mapError _ = _ ↔ _
  cases calculate limits text.toList <;> simp

theorem evaluate_of_ok (h : calculate limits text.toList = .ok v) :
    evaluate text limits = .ok v :=
  evaluate_eq_ok_iff.2 h

theorem evaluate_of_error (h : calculate limits text.toList = .error faults) :
    evaluate text limits = .error (faults.first.diagnose (.ofText text)) := by
  rw [evaluate, evaluateSource_eq]
  show (calculate limits text.toList).mapError _ = _
  rw [h]
  rfl

/-- The calculation that every way in makes something of. -/
theorem calculate_ofText (limits : Limits) (text : String) :
    (Source.ofText text).calculate limits =
      (calculate limits text.toList).mapError (Faults.log (.ofText text)) :=
  (Source.ofText text).calculate_eq limits

theorem report_of_ok (h : calculate limits text.toList = .ok v) :
    report text limits = ⟨true, some v, some v.text, .empty⟩ := by
  rw [report, calculate_ofText, h]
  rfl

theorem report_of_error (h : calculate limits text.toList = .error faults) :
    report text limits = ⟨false, none, none, faults.log (.ofText text)⟩ := by
  rw [report, calculate_ofText, h]
  rfl

theorem check_of_ok (h : calculate .standard text.toList = .ok v) : check text = .empty := by
  rw [check, calculate_ofText, h]
  rfl

theorem check_of_error (h : calculate .standard text.toList = .error faults) :
    check text = faults.log (.ofText text) := by
  rw [check, calculate_ofText, h]
  rfl

/-- A report succeeds exactly when the text evaluates to a number. -/
theorem report_success_iff :
    (report text limits).success = true ↔ ∃ v, evaluate text limits = .ok v := by
  simp only [evaluate_eq_ok_iff]
  cases h : calculate limits text.toList with
  | ok v => simp [report_of_ok h]
  | error faults => simp [report_of_error h]

end WaysIn

end Abacus
