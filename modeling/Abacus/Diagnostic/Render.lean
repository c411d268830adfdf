import Abacus.Diagnostic

/-!
# Diagnostic — Render

A diagnostic for a terminal: its wording, the line it stands on, and a row
of carets under the span. What is beside the line is as wide as the line
number.
-/

namespace Abacus.Diagnostic

/-- The first column that gets a caret. -/
def caretStart (d : Diagnostic) : UInt32 :=
  max d.span.first.col 1

/-- The last column that gets a caret: the end of the span, or the end of
the line when the span goes on to another one. -/
def caretStop (d : Diagnostic) : UInt32 :=
  match d.span.width? with
  | some _ => d.span.last.col
  | none => max (UInt32.ofNat d.sourceLine.length) d.caretStart

/-- How many carets there are, at least one. -/
def caretCount (d : Diagnostic) : UInt32 :=
  monus d.caretStop d.caretStart + 1

/-- The same character several times. -/
def fill (c : Char) (count : Nat) : String :=
  String.ofList (List.replicate count c)

/-- The rows of a diagnostic. -/
def rows (d : Diagnostic) : List String :=
  let number := toString d.span.first.line
  let gutter := fill ' ' number.length
  [ "error[" ++ d.code.text ++ "]: " ++ d.message,
    gutter ++ "--> " ++ d.file ++ ":" ++ d.span.text,
    gutter ++ " |",
    number ++ " | " ++ d.sourceLine,
    gutter ++ " | " ++ fill ' ' (d.caretStart - 1).toNat ++ fill '^' d.caretCount.toNat ] ++
  match d.suggestion? with
  | some suggestion => [gutter ++ " = help: " ++ suggestion]
  | none => []

/-- The rows of a diagnostic as one text. -/
def render (d : Diagnostic) : String :=
  d.rows.foldl (fun text row => text ++ row ++ "\n") ""

end Abacus.Diagnostic
