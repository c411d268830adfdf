import Abacus.Diagnostic
import Abacus.Expr.Evaluate
import Abacus.Expr.OfTokens
import Abacus.Number
import Abacus.Token.Scan

/-!
# Calculation

From a source to a number: scan, build the tree, evaluate, narrow. Each
stage leaves a log, and the first that leaves an error ends the calculation;
only a scan can leave more than one. Reading gives back a tree that may be
absent and a log that may be empty, without a promise that one of them goes
with the other, so a calculation has something to say where both are
missing.
-/

namespace Abacus

/-- What reading a list of tokens comes to. -/
structure Parsed where
  expr? : Option Expr
  errors : DiagnosticLog
deriving DecidableEq

namespace Source

/-- Faults in a source, as a log. -/
def logOf (source : Source) (faults : List Fault) : DiagnosticLog :=
  .ofList (faults.map (Fault.diagnose source))

/-- Reads the tokens of a source. -/
def parse (source : Source) (limits : Limits) (tokens : List Token) : Parsed :=
  match Expr.ofTokens limits tokens with
  | .ok e => ⟨some e, .empty⟩
  | .error fault => ⟨none, .single (fault.diagnose source)⟩

/-- What is said where reading gives neither a tree nor an error. -/
def unparsed (source : Source) : Diagnostic :=
  .inSource source .malformedExpression "expression could not be parsed" (.point .origin)

/-- The tree that reading gave, or what is wrong with the source. -/
def exprOf (source : Source) (parsed : Parsed) : Except DiagnosticLog Expr :=
  if parsed.errors.hasErrors then .error parsed.errors
  else
    match parsed.expr? with
    | some e => .ok e
    | none => .error (.single source.unparsed)

/-- The number a source stands for, or everything that is wrong with it. -/
def calculate (source : Source) (limits : Limits) : Except DiagnosticLog Number :=
  let limits := limits.clamped
  let scan := Scan.ofText source.text
  let errors := source.logOf scan.faults
  if errors.hasErrors then .error errors
  else do
    let e ← source.exprOf (source.parse limits scan.tokens)
    let limit := limits.stepLimit?.getD scan.tokens.length
    match ((e.eval limit).run.run 0).1 with
    | .error fault => .error (.single (fault.diagnose source))
    | .ok value => .ok (.ofDouble value)

end Source

/-- The number a source stands for, or the first thing wrong with it. -/
def evaluateSource (source : Source) (limits : Limits) : Except Diagnostic Number :=
  (source.calculate limits).mapError fun log => log.first?.getD source.unparsed

/-- The number a text stands for, or the first thing wrong with it. -/
def evaluate (text : String) (limits : Limits) : Except Diagnostic Number :=
  evaluateSource (.ofText text) limits

/-- Everything that is wrong with a text under the standard limits. -/
def check (text : String) : DiagnosticLog :=
  match (Source.ofText text).calculate .standard with
  | .ok _ => .empty
  | .error log => log

/-- The outcome of a calculation in one record. -/
structure Report where
  success : Bool
  value? : Option Number
  display? : Option String
  /-- What is wrong otherwise. -/
  errors : DiagnosticLog
deriving DecidableEq

/-- The report on a text. -/
def report (text : String) (limits : Limits) : Report :=
  match (Source.ofText text).calculate limits with
  | .ok value => ⟨true, some value, some value.text, .empty⟩
  | .error log => ⟨false, none, none, log⟩

end Abacus
