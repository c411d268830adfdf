import Abacus.CommandLine.Session
import Abacus.Proofs.Descent
import Abacus.Proofs.Stages
import Abacus.Proofs.StandardCodec
import Abacus.Proofs.TokenStream

/-!
# EntryPoints

A text can be evaluated, checked, reported on, or given to the command
line, which writes plain text or JSON. All of them make something of one
calculation, and each shows in full how it ended: the number, and the first
thing wrong, can be told from what is written. No way in has to make up
what is wrong, since a descent that ends without a tree has reported a fault.
-/

namespace Abacus

open Json

variable {codec : Codec}

/-! ## What is written of a log -/

theorem FaultKind.name_injective {k l : FaultKind} (h : k.name = l.name) : k = l := by
  have hfound := congrArg ofName? h
  rwa [ofName?_name, ofName?_name, Option.some.injEq] at hfound

theorem FaultCategory.name_injective {c d : FaultCategory} (h : c.name = d.name) : c = d := by
  have hfound := congrArg ofName? h
  rwa [ofName?_name, ofName?_name, Option.some.injEq] at hfound

namespace Json.Codec.EncodesAsDeclared

variable (hencode : codec.EncodesAsDeclared)

include hencode

theorem plain_diagnostic (d : Diagnostic) : (codec.diagnostic.encode d).Plain := by
  rw [hencode.encode_diagnostic]
  refine .object ?_
  rw [List.forall_mem_append]
  constructor
  · simp only [List.forall_mem_cons]
    exact ⟨.string _, .string _, .integer _, .string _, .string _, .integer _, .integer _,
      .integer _, .integer _, .string _, by simp⟩
  · cases d.suggestion? with
    | none => simp
    | some suggestion =>
      simp only [List.forall_mem_cons]
      exact ⟨.string _, by simp⟩

theorem plain_log (log : DiagnosticLog) : (codec.log.encode log).Plain := by
  rw [hencode.encode_log]
  refine .object ?_
  simp only [List.forall_mem_cons]
  refine ⟨.array ?_, .integer _, by simp⟩
  rw [List.forall_mem_map]
  exact fun d _ => hencode.plain_diagnostic d

/-- All of a diagnostic is in its object. -/
theorem diagnostic_injective {d d' : Diagnostic}
    (h : codec.diagnostic.encode d = codec.diagnostic.encode d') : d = d' := by
  obtain ⟨file, kind, ⟨number⟩, category, message, ⟨⟨_, _⟩, ⟨_, _⟩⟩, sourceLine, suggestion?⟩ := d
  obtain ⟨file', kind', ⟨number'⟩, category', message', ⟨⟨_, _⟩, ⟨_, _⟩⟩, sourceLine',
    suggestion?'⟩ := d'
  rw [hencode.encode_diagnostic, hencode.encode_diagnostic, Json.object.injEq] at h
  obtain ⟨hown, hsuggestion⟩ := List.append_inj h rfl
  simp only [List.cons.injEq, Prod.mk.injEq, Json.string.injEq, Json.integer.injEq, Int.natCast_inj,
    UInt32.toNat_inj, true_and, and_true] at hown
  obtain ⟨rfl, hkind, rfl, hcategory, rfl, rfl, rfl, rfl, rfl, rfl⟩ := hown
  obtain rfl := FaultKind.name_injective hkind
  obtain rfl := FaultCategory.name_injective hcategory
  cases suggestion? with
  | none => cases suggestion?' with
    | none => rfl
    | some => cases hsuggestion
  | some => cases suggestion?' with
    | none => cases hsuggestion
    | some =>
      cases hsuggestion
      rfl

theorem log_injective {log log' : DiagnosticLog}
    (h : codec.log.encode log = codec.log.encode log') : log = log' := by
  obtain ⟨stored, total⟩ := log
  obtain ⟨stored', total'⟩ := log'
  rw [hencode.encode_log, hencode.encode_log] at h
  simp only [Json.object.injEq, List.cons.injEq, Prod.mk.injEq, Json.array.injEq,
    Json.integer.injEq, Int.natCast_inj, true_and, and_true] at h
  obtain ⟨hstored, rfl⟩ := h
  obtain rfl := (List.map_inj_right fun _ _ => hencode.diagnostic_injective).1 hstored
  rfl

end Json.Codec.EncodesAsDeclared

/-- The report on a text with a number. -/
def Report.ofNumber (v : Number) : Report :=
  ⟨true, some v, some v.text, .empty⟩

/-- The report on a text with something wrong. -/
def Report.ofErrors (log : DiagnosticLog) : Report :=
  ⟨false, none, none, log⟩

/-- **The JSON of what is wrong tells all of it.** -/
theorem Report.ofErrors_inj (hencode : codec.EncodesAsDeclared) (htells : codec.TellsPlain)
    {log log' : DiagnosticLog}
    (h : codec.text codec.report (ofErrors log) = codec.text codec.report (ofErrors log')) :
    log = log' := by
  have hplain : ∀ log, (codec.report.encode (ofErrors log)).Plain := by
    intro log
    rw [hencode.encode_report]
    refine .object ?_
    simp only [ofErrors, List.forall_mem_cons]
    exact ⟨.bool _, .null, .null, hencode.plain_log log, by simp⟩
  have hjson := htells _ _ (hplain log) (hplain log').definite h
  rw [hencode.encode_report, hencode.encode_report] at hjson
  simp only [ofErrors, Json.object.injEq, List.cons.injEq, Prod.mk.injEq, true_and, and_true]
    at hjson
  exact hencode.log_injective hjson

/-! ## What is written of a number -/

/-- A result has a text of its own, if only the one for `null`. -/
theorem Number.definite_encode (hencode : codec.EncodesAsDeclared) (v : Number) :
    (codec.number.encode v).Definite := by
  cases v with
  | integer i =>
    rw [hencode.number_integer]
    exact .integer _
  | real x =>
    by_cases hfinite : x.isFinite = true
    · rw [hencode.number_real hfinite]
      exact .real hfinite
    · rw [hencode.number_real_of_not_finite hfinite]
      exact .null

/-- The JSON of a report tells whether its result is a whole number, and
which. -/
theorem Report.ofNumber_integer_inj (hencode : codec.EncodesAsDeclared)
    (htells : codec.TellsPlain) {i : Int64} {v : Number}
    (h : codec.text codec.report (ofNumber (.integer i)) = codec.text codec.report (ofNumber v)) :
    .integer i = v := by
  have hlog := hencode.plain_log .empty
  have hplain : (codec.report.encode (ofNumber (.integer i))).Plain := by
    rw [hencode.encode_report]
    refine .object ?_
    simp only [ofNumber, hencode.number_integer, List.forall_mem_cons]
    exact ⟨.bool _, .integer _, .string _, hlog, by simp⟩
  have hdefinite : (codec.report.encode (ofNumber v)).Definite := by
    rw [hencode.encode_report]
    refine .object ?_
    simp only [ofNumber, List.forall_mem_cons]
    exact ⟨.bool _, v.definite_encode hencode, .string _, hlog.definite, by simp⟩
  have hjson := htells _ _ hplain hdefinite h
  rw [hencode.encode_report, hencode.encode_report] at hjson
  simp only [ofNumber, Json.object.injEq, List.cons.injEq, Prod.mk.injEq, true_and, and_true,
    hencode.number_integer] at hjson
  cases v with
  | integer i' =>
    rw [hencode.number_integer, Json.integer.injEq] at hjson
    rw [Int64.toInt_inj.1 hjson.1]
  | real x =>
    by_cases hfinite : x.isFinite = true
    · rw [hencode.number_real hfinite] at hjson
      cases hjson.1
    · rw [hencode.number_real_of_not_finite hfinite] at hjson
      cases hjson.1

/-- **The text of a number and the JSON of the report on it tell which it
is.** A double that is a whole number may have the text of a whole number,
but not its JSON. -/
theorem Report.ofNumber_inj (hencode : codec.EncodesAsDeclared) (htells : codec.TellsPlain)
    {v v' : Number} (htext : v.text = v'.text)
    (hjson : codec.text codec.report (ofNumber v) = codec.text codec.report (ofNumber v')) :
    v = v' := by
  cases v with
  | integer i => exact ofNumber_integer_inj hencode htells hjson
  | real x => cases v' with
    | integer i' => exact (ofNumber_integer_inj hencode htells hjson.symm).symm
    | real x' => rw [Double.toPlain_injective (String.ofList_injective htext)]

/-! ## Logs of faults -/

/-- A log that keeps the first twenty diagnostics, `d` the first of them. -/
structure DiagnosticLog.BeginsWith (log : DiagnosticLog) (d : Diagnostic) : Prop where
  first : log.stored.head? = some d
  count : log.stored.length = min log.total 20

/-- **A log of faults begins with the first.** -/
theorem Faults.log_beginsWith (source : Source) (faults : Faults) :
    (faults.log source).BeginsWith (faults.first.diagnose source) := by
  rw [log, Source.logOf_eq]
  constructor
  · rfl
  · rw [List.length_take, List.length_map, Nat.min_comm]
    rfl

/-- What is said where nothing else is known to be wrong. -/
def fallbackMessage : String := "expression could not be parsed"

/-- The words that the wordings begin with. -/
def Cause.openings : List String :=
  ["unexpected character '", "malformed number literal ", "unmatched ')'", "unclosed '('",
    "expression has ", "empty expression", "empty parentheses",
    "expected a number or '(', found ", "expected a number or '(' after '",
    "expected ')' but found ", "unexpected '", "maximum nesting depth is ",
    "internal error: evaluation exceeded ", "division by zero",
    "number literal is too large to represent", "result of '"]

theorem opens_append {words s : String} (h : words.toList <+: s.toList) (t : String) :
    words.toList <+: (s ++ t).toList := by
  rw [String.toList_append]
  exact h.trans (List.prefix_append _ _)

theorem Cause.exists_opening (cause : Cause) :
    ∃ words ∈ openings, words.toList <+: cause.message.toList := by
  have hopens : ∀ words : String, words.toList <+: words.toList := fun _ => List.prefix_rfl
  cases cause with
  | unexpectedCharacter =>
    exact ⟨_, by simp [openings], opens_append (opens_append (hopens "unexpected character '") _) _⟩
  | malformedNumeral =>
    exact ⟨_, by simp [openings], opens_append (hopens "malformed number literal ") _⟩
  | tooManyTokens =>
    exact ⟨_, by simp [openings],
      opens_append (opens_append (opens_append (hopens "expression has ") _) _) _⟩
  | missingOperand previous? =>
    cases previous? with
    | none =>
      exact ⟨_, by simp [openings], opens_append (hopens "expected a number or '(', found ") _⟩
    | some =>
      have hafter := hopens "expected a number or '(' after '"
      exact ⟨_, by simp [openings], opens_append (opens_append (opens_append hafter _) _) _⟩
  | missingClose =>
    exact ⟨_, by simp [openings], opens_append (hopens "expected ')' but found ") _⟩
  | trailing =>
    exact ⟨_, by simp [openings], opens_append (opens_append (hopens "unexpected '") _) _⟩
  | nestedTooDeep =>
    exact ⟨_, by simp [openings], opens_append (hopens "maximum nesting depth is ") _⟩
  | stepsExhausted =>
    exact ⟨_, by simp [openings],
      opens_append (opens_append (hopens "internal error: evaluation exceeded ") _) _⟩
  | resultTooLarge =>
    exact ⟨_, by simp [openings], opens_append (opens_append (hopens "result of '") _) _⟩
  | unmatchedClose => exact ⟨_, by simp [openings], hopens "unmatched ')'"⟩
  | unclosedOpen => exact ⟨_, by simp [openings], hopens "unclosed '('"⟩
  | emptyExpression => exact ⟨_, by simp [openings], hopens "empty expression"⟩
  | emptyParentheses => exact ⟨_, by simp [openings], hopens "empty parentheses"⟩
  | zeroDivisor => exact ⟨_, by simp [openings], hopens "division by zero"⟩
  | literalTooLarge =>
    exact ⟨_, by simp [openings], hopens "number literal is too large to represent"⟩

/-- Every cause has words of its own. -/
theorem Cause.message_ne_fallback (cause : Cause) : cause.message ≠ fallbackMessage := by
  intro h
  obtain ⟨words, hwords, hopens⟩ := cause.exists_opening
  rw [h] at hopens
  have hnone : ∀ words ∈ openings, ¬ words.toList <+: fallbackMessage.toList := by decide
  exact hnone words hwords hopens

theorem Faults.message_of_mem_log {source : Source} {faults : Faults} {d : Diagnostic}
    (h : d ∈ (faults.log source).stored) : d.message ≠ fallbackMessage := by
  obtain ⟨f, -, rfl⟩ := exists_of_mem_log h
  exact f.cause.message_ne_fallback

/-! ## Descents -/

namespace Descent

variable {limits : Limits} {tokens : List Token} {fuel : Nat} {tree? : Option Expr} {p : Cursor}

/-- **Reading has a tree exactly when it has reported nothing.** -/
theorem isSome_iff_of_runOn
    (h : runOn (parse limits tokens fuel) (.start tokens) = some (tree?, p)) :
    tree?.isSome = true ↔ p.faults = [] := by
  have hexplained : Explained [] tree? p.faults := explains_parse limits tokens fuel _ _ _ h
  generalize p.faults = faults at hexplained
  cases hexplained <;> simp

/-- Nothing is made up in place of what a descent gives back. -/
theorem exprOf_ne_unparsed
    (h : runOn (parse limits tokens fuel) (.start tokens) = some (tree?, p)) (source : Source) :
    source.exprOf ⟨tree?, source.logOf p.faults⟩ ≠ .error (.single source.unparsed) := by
  have hexplained : Explained [] tree? p.faults := explains_parse limits tokens fuel _ _ _ h
  generalize p.faults = faults at hexplained
  cases hexplained with
  | result e =>
    rintro ⟨⟩
  | fault f =>
    intro heq
    have hlog : source.logOf [f] = .single source.unparsed := Except.error.inj heq
    have hstored := congrArg DiagnosticLog.stored hlog
    have hdiagnostic : f.diagnose source = source.unparsed := (List.cons.inj hstored).1
    exact f.cause.message_ne_fallback (congrArg Diagnostic.message hdiagnostic)

/-- A list that does not end in a sign is read as a descent reads it. -/
theorem exists_ends_eq_parse (limits : Limits) (source : Source)
    (hlast : ∀ t ∈ tokens.getLast?, t.kind.isSign = false) :
    ∃ tree? p, Ends (parse limits tokens) (.start tokens) (tree?, p) ∧
      source.parse limits tokens = ⟨tree?, source.logOf p.faults⟩ := by
  obtain ⟨tree?, p, hends, hanswers, -⟩ := exists_ends_parse limits hlast
  refine ⟨tree?, p, hends, ?_⟩
  rw [Source.parse]
  generalize Expr.ofTokens limits tokens = answer at hanswers
  generalize p.faults = faults at hanswers
  cases hanswers <;> rfl

end Descent

/-- What is scanned is read as a descent reads it: it ends in the end of the
text. -/
theorem Source.exists_ends_eq_parse (source : Source) (limits : Limits) :
    let tokens := (Scan.ofText source.text).tokens
    ∃ tree? p, Descent.Ends (Descent.parse limits tokens) (.start tokens) (tree?, p) ∧
      source.parse limits.clamped tokens = ⟨tree?, source.logOf p.faults⟩ := by
  intro tokens
  obtain ⟨w, s, htokens, -⟩ := Scan.exists_tokens_eq source.text
  have hlast : ∀ t ∈ tokens.getLast?, t.kind.isSign = false := by
    intro t ht
    rw [show tokens = w ++ [⟨.endOfInput, s⟩] from htokens, List.getLast?_concat] at ht
    cases ht
    rfl
  have hclamped : source.parse limits.clamped tokens = source.parse limits tokens := by
    rw [parse, parse, Expr.ofTokens_clamped]
  rw [hclamped]
  exact Descent.exists_ends_eq_parse limits source hlast

/-! ## The command line -/

namespace CommandLine

variable {limits : Limits} {text : String} {v : Number} {faults : Faults}

theorem runOnce_text_of_ok (h : calculate limits text.toList = .ok v) :
    runOnce codec ⟨limits, false⟩ text = (true, ⟨v.text ++ "\n", ""⟩) := by
  unfold runOnce
  simp only [evaluate_of_ok h]
  rfl

theorem runOnce_text_of_error (h : calculate limits text.toList = .error faults) :
    runOnce codec ⟨limits, false⟩ text =
      (false, ⟨"", (faults.first.diagnose (.ofText text)).render⟩) := by
  unfold runOnce
  simp only [evaluate_of_error h]
  rfl

theorem runOnce_json_of_ok (h : calculate limits text.toList = .ok v) :
    runOnce codec ⟨limits, true⟩ text =
      (true, ⟨codec.text codec.report (.ofNumber v) ++ "\n", ""⟩) := by
  unfold runOnce
  simp only [report_of_ok h]
  rfl

theorem runOnce_json_of_error (h : calculate limits text.toList = .error faults) :
    runOnce codec ⟨limits, true⟩ text =
      (false, ⟨codec.text codec.report (.ofErrors (faults.log (.ofText text))) ++ "\n", ""⟩) := by
  unfold runOnce
  simp only [report_of_error h]
  rfl

/-- A text with a line feed after it tells the text. -/
theorem append_lineFeed_inj {s t : String} (h : s ++ "\n" = t ++ "\n") : s = t := by
  have hchars := congrArg String.toList h
  rw [String.toList_append, String.toList_append] at hchars
  exact String.toList_injective (List.append_cancel_right hchars)

end CommandLine

/-! ## One story -/

open CommandLine in
/-- How a text with a number is told of in each way. -/
theorem iffs_of_ok (hencode : codec.EncodesAsDeclared) (htells : codec.TellsPlain)
    {limits : Limits} {text : String} {v : Number} (h : calculate limits text.toList = .ok v)
    (v' : Number) :
    (evaluate text limits = .ok v' ↔ v = v') ∧ (report text limits = .ofNumber v' ↔ v = v') ∧
      (runOnce codec ⟨limits, false⟩ text = (true, ⟨v'.text ++ "\n", ""⟩) ∧
        runOnce codec ⟨limits, true⟩ text =
          (true, ⟨codec.text codec.report (.ofNumber v') ++ "\n", ""⟩) ↔ v = v') := by
  rw [evaluate_of_ok h, report_of_ok h, runOnce_text_of_ok h, runOnce_json_of_ok h]
  refine ⟨by simp, ⟨fun heq => ?_, ?_⟩, fun heq => ?_, ?_⟩
  · simp only [Report.ofNumber, Report.mk.injEq, Option.some.injEq] at heq
    exact heq.2.1
  · rintro rfl
    rfl
  · simp only [Prod.mk.injEq, Written.mk.injEq, true_and, and_true] at heq
    exact Report.ofNumber_inj hencode htells (append_lineFeed_inj heq.1) (append_lineFeed_inj heq.2)
  · rintro rfl
    exact ⟨rfl, rfl⟩

open CommandLine in
/-- How a text with something wrong is told of in each way. -/
theorem iffs_of_error (hencode : codec.EncodesAsDeclared) (htells : codec.TellsPlain)
    {limits : Limits} {text : String} {faults : Faults}
    (h : calculate limits text.toList = .error faults) (d' : Diagnostic) :
    let d := faults.first.diagnose (.ofText text)
    (evaluate text limits = .error d' ↔ d = d') ∧
      ((∃ log, log.BeginsWith d' ∧ report text limits = .ofErrors log) ↔ d = d') ∧
      (runOnce codec ⟨limits, false⟩ text = (false, ⟨"", d'.render⟩) ∧
        (∃ log, log.BeginsWith d' ∧ runOnce codec ⟨limits, true⟩ text =
          (false, ⟨codec.text codec.report (.ofErrors log) ++ "\n", ""⟩)) ↔ d = d') := by
  intro d
  have hbegins := faults.log_beginsWith (.ofText text)
  rw [evaluate_of_error h, report_of_error h, runOnce_text_of_error h, runOnce_json_of_error h]
  -- a log that begins with two diagnostics begins with one
  have hfirst : (faults.log (.ofText text)).BeginsWith d' → d = d' := by
    intro hbegins'
    exact Option.some.inj (hbegins.first.symm.trans hbegins'.first)
  refine ⟨by simp [d], ⟨?_, ?_⟩, ?_, ?_⟩
  · rintro ⟨log, hlog, heq⟩
    simp only [Report.ofErrors, Report.mk.injEq, true_and] at heq
    exact hfirst (heq ▸ hlog)
  · rintro rfl
    exact ⟨_, hbegins, rfl⟩
  · rintro ⟨-, log, hlog, heq⟩
    simp only [Prod.mk.injEq, Written.mk.injEq, true_and, and_true] at heq
    rw [← Report.ofErrors_inj hencode htells (append_lineFeed_inj heq)] at hlog
    exact hfirst hlog
  · rintro rfl
    exact ⟨rfl, _, hbegins, rfl⟩

open CommandLine in
/-- **All ways in tell the same story.** A text evaluates to a number exactly
when the report on it says so and has no errors, and exactly when the
command line succeeds both ways and writes the number, or that report, and
nothing to the error stream. It evaluates to an error exactly when the
report has no number and a log of the first twenty errors that begins with
this one, and exactly when the command line fails both ways, with this error
on the error stream or such a report on the output, and nothing on the
other. A check gives the errors of the report under the standard limits.
What ends a calculation leaves an error in the log, and none is made up:
a descent over any list has a tree exactly when it reports no fault, and what
is scanned is read as a descent reads it. -/
theorem evaluate_report_runOnce (hencode : codec.EncodesAsDeclared) (htells : codec.TellsPlain)
    (text : String) (limits : Limits) :
    (∀ v,
      (evaluate text limits = .ok v ↔ report text limits = ⟨true, some v, some v.text, .empty⟩) ∧
      (evaluate text limits = .ok v ↔
        runOnce codec ⟨limits, false⟩ text = (true, ⟨v.text ++ "\n", ""⟩) ∧
        runOnce codec ⟨limits, true⟩ text =
          (true, ⟨codec.text codec.report ⟨true, some v, some v.text, .empty⟩ ++ "\n", ""⟩))) ∧
    (∀ d,
      (evaluate text limits = .error d ↔
        ∃ log, log.BeginsWith d ∧ report text limits = ⟨false, none, none, log⟩) ∧
      (evaluate text limits = .error d ↔
        runOnce codec ⟨limits, false⟩ text = (false, ⟨"", d.render⟩) ∧
        ∃ log, log.BeginsWith d ∧ runOnce codec ⟨limits, true⟩ text =
          (false, ⟨codec.text codec.report ⟨false, none, none, log⟩ ++ "\n", ""⟩))) ∧
    check text = (report text .standard).errors ∧
    (∀ source log, Source.calculate source limits = .error log →
      log.stored ≠ [] ∧ ∀ d ∈ log.stored, d.message ≠ "expression could not be parsed") ∧
    (∀ tokens fuel tree? p,
      Descent.runOn (Descent.parse limits tokens fuel) (.start tokens) = some (tree?, p) →
        (tree?.isSome = true ↔ p.faults = []) ∧
        ∀ source : Source,
          source.exprOf ⟨tree?, source.logOf p.faults⟩ ≠ .error (.single source.unparsed)) ∧
    ∀ source : Source, let tokens := (Scan.ofText source.text).tokens
      ∃ tree? p, Descent.Ends (Descent.parse limits tokens) (.start tokens) (tree?, p) ∧
        source.parse limits.clamped tokens = ⟨tree?, source.logOf p.faults⟩ := by
  refine ⟨fun v => ?_, fun d => ?_, ?_, fun source log hlog => ?_, fun tokens fuel tree? p h => ?_,
    fun source => source.exists_ends_eq_parse limits⟩
  · cases h : calculate limits text.toList with
    | ok v' =>
      obtain ⟨hevaluate, hreport, hrun⟩ := iffs_of_ok hencode htells h v
      exact ⟨hevaluate.trans hreport.symm, hevaluate.trans hrun.symm⟩
    | error faults =>
      rw [evaluate_of_error h, report_of_error h, runOnce_text_of_error h]
      simp
  · cases h : calculate limits text.toList with
    | ok v' =>
      rw [evaluate_of_ok h, report_of_ok h, runOnce_text_of_ok h]
      simp
    | error faults =>
      obtain ⟨hevaluate, hreport, hrun⟩ := iffs_of_error hencode htells h d
      exact ⟨hevaluate.trans hreport.symm, hevaluate.trans hrun.symm⟩
  · cases h : calculate .standard text.toList with
    | ok v => rw [check_of_ok h, report_of_ok h]
    | error faults => rw [check_of_error h, report_of_error h]
  · obtain ⟨faults, -, rfl⟩ := Source.exists_faults_of_calculate hlog
    refine ⟨fun hnil => ?_, fun d hd => Faults.message_of_mem_log hd⟩
    have hfirst := (faults.log_beginsWith source).first
    rw [hnil] at hfirst
    cases hfirst
  · exact ⟨Descent.isSome_iff_of_runOn h, Descent.exprOf_ne_unparsed h⟩

open CommandLine in
/-- A half is told of as `0.5`; where a divisor is missing, that is what
every way in tells of, and what a descent reports. -/
theorem evaluate_report_runOnce_half :
    let half := Number.real ((Double.ofInt 1).div (.ofInt 2))
    let slash : Token := ⟨.slash, .point ⟨1, 1⟩⟩
    (Codec.standard.EncodesAsDeclared ∧ Codec.standard.TellsPlain) ∧
    report "1/2" .standard = ⟨true, some half, some "0.5", .empty⟩ ∧
    runOnce .standard ⟨.standard, false⟩ "1/2" = (true, ⟨"0.5\n", ""⟩) ∧
    (∃ d log, d.message = "expected a number or '(' after '/', found end of input" ∧
      log.BeginsWith d ∧ report "1/" .standard = ⟨false, none, none, log⟩ ∧
      runOnce .standard ⟨.standard, false⟩ "1/" = (false, ⟨"", d.render⟩)) ∧
    ∃ p, Descent.runOn (Descent.parse .standard [slash] 9) (.start [slash]) = some (none, p) ∧
      p.faults ≠ [] := by
  intro half slash
  have hencode := Codec.standard_encodesAsDeclared
  have htells := Codec.standard_tellsPlain
  obtain ⟨hnumber, -, -, -, hdescent, -⟩ :=
    evaluate_report_runOnce hencode htells "1/2" .standard
  obtain ⟨-, herror, -⟩ := evaluate_report_runOnce hencode htells "1/" .standard
  have hhalf : evaluate "1/2" .standard = .ok half := by decide +kernel
  have htext : half.text = "0.5" := by decide +kernel
  obtain ⟨d, hd, hmessage⟩ : ∃ d, evaluate "1/" .standard = .error d ∧
      d.message = "expected a number or '(' after '/', found end of input" :=
    ⟨_, rfl, by decide +kernel⟩
  obtain ⟨log, hbegins, hlog⟩ := (herror d).1.1 hd
  have hread : Descent.runOn (Descent.parse .standard [slash] 9) (.start [slash]) =
      some (none, (Cursor.start [slash]).reporting ⟨.missingOperand none .slash, slash.span⟩) := by
    decide +kernel
  refine ⟨⟨hencode, htells⟩, htext ▸ (hnumber half).1.1 hhalf, ?_,
    ⟨d, log, hmessage, hbegins, hlog, ((herror d).2.1 hd).1⟩, _, hread, fun hnil => ?_⟩
  · rw [((hnumber half).2.1 hhalf).1, htext]
    rfl
  · exact Bool.false_ne_true ((hdescent _ _ _ _ hread).1.2 hnil)

end Abacus
