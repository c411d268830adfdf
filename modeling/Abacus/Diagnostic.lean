import Abacus.Fault
import Abacus.Source

/-!
# Diagnostic

A fault as a reader meets it: with the name of the text, the wording and
the line it stands on. A log keeps the first twenty diagnostics and counts
them all.
-/

namespace Abacus

/-- A located and worded fault. -/
structure Diagnostic where
  file : String
  kind : FaultKind
  code : FaultCode
  category : FaultCategory
  message : String
  span : Span
  /-- The line on which the span begins. -/
  sourceLine : String
  /-- How to mend it. -/
  suggestion? : Option String
deriving DecidableEq

namespace Diagnostic

/-- A diagnostic whose code and category follow from its kind. -/
def ofKind (file : String) (kind : FaultKind) (message : String) (span : Span)
    (sourceLine : String) : Diagnostic where
  file := file
  kind := kind
  code := kind.code
  category := kind.code.category
  message := message
  span := span
  sourceLine := sourceLine
  suggestion? := none

/-- A diagnostic in a source: it carries the name of the source and a copy
of the line on which its span begins. -/
def inSource (source : Source) (kind : FaultKind) (message : String) (span : Span) :
    Diagnostic :=
  ofKind source.name kind message span ((source.line? span.first.line.toNat).getD "")

/-- One line of text for a diagnostic. -/
def summary (d : Diagnostic) : String :=
  d.span.text ++ ": " ++ d.code.text ++ " [" ++ d.category.name ++ "] " ++ d.message

end Diagnostic

/-- A fault as a diagnostic in its source. -/
def Fault.diagnose (source : Source) (f : Fault) : Diagnostic :=
  { Diagnostic.inSource source f.cause.kind f.cause.message f.span with
    suggestion? := f.cause.suggestion? }

/-- The first twenty diagnostics, and how many there were. -/
structure DiagnosticLog where
  stored : List Diagnostic
  /-- How many there were. -/
  total : Nat
deriving DecidableEq

namespace DiagnosticLog

/-- How many diagnostics are kept. -/
def capacity : Nat := 20

/-- The log without a diagnostic. -/
def empty : DiagnosticLog := ⟨[], 0⟩

/-- Adds a diagnostic; past the capacity it is only counted. -/
def push (log : DiagnosticLog) (d : Diagnostic) : DiagnosticLog where
  stored := if log.stored.length < capacity then log.stored ++ [d] else log.stored
  total := log.total + 1

/-- The log with one diagnostic. -/
def single (d : Diagnostic) : DiagnosticLog :=
  empty.push d

/-- The log of several diagnostics in order. -/
def ofList (ds : List Diagnostic) : DiagnosticLog :=
  ds.foldl push empty

/-- Whether there was any. -/
def hasErrors (log : DiagnosticLog) : Bool :=
  0 < log.total

/-- Whether no further one would be kept. -/
def isFull (log : DiagnosticLog) : Bool :=
  capacity ≤ log.total

/-- The first one. -/
def first? (log : DiagnosticLog) : Option Diagnostic :=
  log.stored.head?

/-- The last one that is kept. -/
def last? (log : DiagnosticLog) : Option Diagnostic :=
  log.stored.getLast?

/-- Adding keeps what fits. -/
theorem stored_push (log : DiagnosticLog) (d : Diagnostic)
    (h : log.stored.length ≤ capacity) :
    (log.push d).stored = (log.stored ++ [d]).take capacity := by
  unfold push
  simp only []
  split
  · rw [List.take_of_length_le (by simp; omega)]
  · rw [List.take_append_of_le_length (by omega), List.take_of_length_le h]

/-- Adding counts. -/
theorem total_push (log : DiagnosticLog) (d : Diagnostic) :
    (log.push d).total = log.total + 1 := rfl

/-- Adding to a log within its capacity stays within it. -/
theorem stored_le {log : DiagnosticLog} (d : Diagnostic)
    (h : log.stored.length ≤ capacity) : (log.push d).stored.length ≤ capacity := by
  rw [stored_push log d h, List.length_take]
  exact Nat.min_le_left ..

/-- A log of several diagnostics keeps the first ones and counts all. -/
theorem ofList_eq (ds : List Diagnostic) :
    ofList ds = ⟨ds.take capacity, ds.length⟩ := by
  have hfold : ∀ (log : DiagnosticLog), log.stored.length ≤ capacity →
      ds.foldl push log = ⟨(log.stored ++ ds).take capacity, log.total + ds.length⟩ := by
    induction ds with
    | nil =>
      intro log h
      rw [List.append_nil, List.take_of_length_le h]
      rfl
    | cons d ds ih =>
      intro log h
      rw [List.foldl_cons, ih _ (stored_le d h), stored_push log d h, total_push,
        List.length_cons]
      -- what the first diagnostic pushes out is beyond the capacity anyway
      have htake : (List.take capacity (log.stored ++ [d]) ++ ds).take capacity =
          (log.stored ++ d :: ds).take capacity := by
        rw [List.append_cons log.stored d ds]
        generalize log.stored ++ [d] = stored
        rw [List.take_append, List.take_append, List.take_take, Nat.min_self, List.length_take]
        congr 2
        omega
      rw [htake, Nat.add_right_comm, Nat.add_assoc]
  exact (hfold empty (Nat.zero_le _)).trans (by simp [empty])

/-- A log keeps all that fit. -/
theorem ofList_of_length_le {ds : List Diagnostic} (h : ds.length ≤ capacity) :
    ofList ds = ⟨ds, ds.length⟩ := by
  rw [ofList_eq, List.take_of_length_le h]

end DiagnosticLog

end Abacus
