import Abacus.Json.Declared

/-!
# Json — Decode

Records read back from JSON values. A field that is known must not come
twice, one that is unknown is passed over. Spans, limits, logs and reports
may also be arrays of their fields in order. Nothing is checked across
fields: a code need not belong to its kind.
-/

namespace Abacus

namespace Json

/-- The values given for a name. -/
def valuesOf (fields : List (String × Json)) (name : String) : List Json :=
  (fields.filter fun field => field.1 == name).map (·.2)

/-- A field that has to be there. -/
def required? {α : Type} (fields : List (String × Json)) (name : String)
    (decode? : Json → Option α) : Option α :=
  match valuesOf fields name with
  | [value] => decode? value
  | _ => none

/-- A field that may be missing, and then has a fixed value. -/
def defaulted? {α : Type} (fields : List (String × Json)) (name : String) (absent : α)
    (decode? : Json → Option α) : Option α :=
  match valuesOf fields name with
  | [] => some absent
  | [value] => decode? value
  | _ => none

/-- A word of a fixed set: a string, or an object whose only field has the
word for its name and `null` for its value. -/
def word? : Json → Option String
  | string value => some value
  | object [(name, null)] => some name
  | _ => none

/-- How deep arrays and objects may nest in what is kept of a text. -/
def nestingLimit : Nat := 127

end Json

open Json Format

/-- A span from its fields. -/
def Span.ofFields? (fields : List (String × Json)) : Option Span := do
  let line ← required? fields "line" counter.decode?
  let column ← required? fields "column" counter.decode?
  let endLine ← required? fields "end_line" counter.decode?
  let endColumn ← required? fields "end_column" counter.decode?
  some ⟨⟨line, column⟩, ⟨endLine, endColumn⟩⟩

/-- A span from a value. -/
def Span.ofJson? : Json → Option Span
  | .object fields => ofFields? fields
  | .array [a, b, c, d] => do
    some ⟨⟨← counter.decode? a, ← counter.decode? b⟩, ⟨← counter.decode? c, ← counter.decode? d⟩⟩
  | _ => none

/-- Limits from a value; what is missing is as in the standard limits. -/
def Limits.ofJson? : Json → Option Limits
  | .object fields => do
    let maxDepth ← defaulted? fields "max_depth" standard.maxDepth word32.decode?
    let maxTokens ← defaulted? fields "max_tokens" standard.maxTokens word64.decode?
    let stepLimit? ← defaulted? fields "step_limit" standard.stepLimit? (orNull? word64.decode?)
    some ⟨maxDepth, maxTokens, stepLimit?⟩
  | .array [] => some standard
  | .array [a] => do
    some ⟨← word32.decode? a, standard.maxTokens, standard.stepLimit?⟩
  | .array [a, b] => do
    some ⟨← word32.decode? a, ← word64.decode? b, standard.stepLimit?⟩
  | .array [a, b, c] => do
    some ⟨← word32.decode? a, ← word64.decode? b, ← orNull? word64.decode? c⟩
  | _ => none

/-- A kind from a value. -/
def FaultKind.ofJson? (j : Json) : Option FaultKind :=
  (word? j).bind ofName?

/-- A category from a value. -/
def FaultCategory.ofJson? (j : Json) : Option FaultCategory :=
  (word? j).bind ofName?

/-- The names that a diagnostic has apart from those of its span. -/
def Diagnostic.ownNames : List String :=
  ["file", "kind", "code", "category", "message", "source_line", "suggestion"]

/-- A diagnostic from a value that stands inside `depth` arrays and objects.
The fields under other names are kept until the span is found among them,
so they have to be usable and must not nest too deep. -/
def Diagnostic.ofJson? (depth : Nat) : Json → Option Diagnostic
  | .object fields => do
    let file ← required? fields "file" text.decode?
    let kind ← required? fields "kind" FaultKind.ofJson?
    let code ← required? fields "code" word16.decode?
    let category ← required? fields "category" FaultCategory.ofJson?
    let message ← required? fields "message" text.decode?
    let sourceLine ← required? fields "source_line" text.decode?
    let suggestion? ← defaulted? fields "suggestion" none (orNull? text.decode?)
    let others := fields.filter fun field => !ownNames.contains field.1
    let span ← Span.ofFields? others
    if fitsFields (nestingLimit - depth - 1) others then
      some ⟨file, kind, ⟨code⟩, category, message, span, sourceLine, suggestion?⟩
    else none
  | _ => none

/-- The items of an array, each read as a diagnostic. -/
def Diagnostic.listOfJson? (depth : Nat) : Json → Option (List Diagnostic)
  | .array items => items.mapM (Diagnostic.ofJson? (depth + 1))
  | _ => none

/-- A log from a value that stands inside `depth` arrays and objects. -/
def DiagnosticLog.ofJson? (depth : Nat) : Json → Option DiagnosticLog
  | .object fields => do
    let stored ← required? fields "errors" (Diagnostic.listOfJson? (depth + 1))
    let total ← required? fields "total_errors" word64.decode?
    some ⟨stored, total⟩
  | .array [a, b] => do
    some ⟨← Diagnostic.listOfJson? (depth + 1) a, ← word64.decode? b⟩
  | _ => none

/-- A result from a value. A whole number that does not fit is a double, and
a number with a point or an exponent stays one. -/
def Number.ofJson? (j : Json) : Option Number :=
  ((signed64.decode? j).map integer).or ((double.decode? j).map real)

/-- A report from a value. -/
def Report.ofJson? : Json → Option Report
  | .object fields => do
    let success ← required? fields "success" bool.decode?
    let value? ← defaulted? fields "value" none (orNull? Number.ofJson?)
    let display? ← defaulted? fields "display" none (orNull? text.decode?)
    let errors ← required? fields "errors" (DiagnosticLog.ofJson? 1)
    some ⟨success, value?, display?, errors⟩
  | .array [a, b, c, d] => do
    some ⟨← bool.decode? a, ← orNull? Number.ofJson? b, ← orNull? text.decode? c,
      ← DiagnosticLog.ofJson? 1 d⟩
  | _ => none

end Abacus
