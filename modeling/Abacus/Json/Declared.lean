import Abacus.Calculation
import Abacus.Json.Format

/-!
# Json — Declared

What the records that callers can ask for declare about their JSON form:
the names of their fields in order, and what happens where one is absent. A
suggestion or a step limit that is absent is left out, while the number and
the text of a report are `null`; limits that are missing are as in the
standard ones. The span of a diagnostic is given by fields among its own. A
result is a bare number, and its spelling alone says which kind it is.
-/

namespace Abacus

open Json

/-- The fields of a span. -/
def Span.fields : List (FieldDecl Span) :=
  [ .plain "line" (·.first.line) .counter,
    .plain "column" (·.first.col) .counter,
    .plain "end_line" (·.last.line) .counter,
    .plain "end_column" (·.last.col) .counter ]

/-- The fields of limits. -/
def Limits.fields : List (FieldDecl Limits) :=
  [ .defaulted "max_depth" (·.maxDepth) standard.maxDepth .word32,
    .defaulted "max_tokens" (·.maxTokens) standard.maxTokens .word64,
    .optional "step_limit" (·.stepLimit?) .word64 ]

/-- The fields of a diagnostic. -/
def Diagnostic.fields (kind : Format FaultKind) (category : Format FaultCategory)
    (span : Format Span) : List (FieldDecl Diagnostic) :=
  [ .plain "file" (·.file) .text,
    .plain "kind" (·.kind) kind,
    .plain "code" (·.code.number) .word16,
    .plain "category" (·.category) category,
    .plain "message" (·.message) .text,
    .flattened (·.span) span,
    .plain "source_line" (·.sourceLine) .text,
    .optional "suggestion" (·.suggestion?) .text ]

/-- The fields of a log. -/
def DiagnosticLog.fields (diagnostic : Format Diagnostic) : List (FieldDecl DiagnosticLog) :=
  [ .plain "errors" (·.stored) (.list diagnostic),
    .plain "total_errors" (·.total) .word64 ]

/-- The fields of a report. -/
def Report.fields (number : Format Number) (log : Format DiagnosticLog) : List (FieldDecl Report) :=
  [ .plain "success" (·.success) .bool,
    .nullable "value" (·.value?) number,
    .nullable "display" (·.display?) .text,
    .plain "errors" (·.errors) log ]

/-- The ways a result is given, in the order in which they are tried. -/
def Number.variants : List (Variant Number) :=
  [⟨.integer, .signed64⟩, ⟨.real, .double⟩]

end Abacus
