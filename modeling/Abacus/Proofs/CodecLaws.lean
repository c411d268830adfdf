import Abacus.Json.Codec

/-!
# CodecLaws

What is asked of a codec. The records declare their fields, and a codec that
is made from the declarations writes each record as the object that its
fields add up to, and finds a record in an object that has what each of its
fields asks for. Besides this the text of a JSON value has to tell the value:
it is read as that value, as long as every number in it is; and even where
that is not so, the text of a value without doubles is that of no other.

None of these laws says that a record is read back. That depends on what the
records declare: the names in an object must not collide, what is left out
must be found absent, and of the ways a result may be given the first one
that fits must be the right one.
-/

namespace Abacus.Json

variable {R α : Type} {name : String} {given : List (String × Json)} {own : List String}

/-! ## Records -/

namespace FieldDecl

/-- The names that a record has itself, those of its flattened records left
out. -/
def ownNames (fields : List (FieldDecl R)) : List String :=
  fields.filterMap name?

/-- What an object has to have for a field of the record `r`. Where a value
may be missing, it may be `null` as well. A flattened record takes up what
has none of the names in `own`. -/
def Finds (given : List (String × Json)) (own : List String) (r : R) : FieldDecl R → Prop
  | plain name get format => ∃ j, valuesOf given name = [j] ∧ format.decode? j = some (get r)
  | defaulted name get absent format =>
    (valuesOf given name = [] ∧ get r = absent) ∨
      ∃ j, valuesOf given name = [j] ∧ format.decode? j = some (get r)
  | nullable name get format | optional name get format =>
    ((valuesOf given name = [] ∨ valuesOf given name = [.null]) ∧ get r = none) ∨
      ∃ j v, valuesOf given name = [j] ∧ j ≠ .null ∧ format.decode? j = some v ∧ get r = some v
  | flattened get format =>
    format.decode? (.object (given.filter fun field => !own.contains field.1)) = some (get r)

end FieldDecl

namespace Format

/-- Records are written as what their fields add up to. -/
def EncodesAs (format : Format R) (fields : List (FieldDecl R)) : Prop :=
  ∀ r, format.encode r = FieldDecl.objectOf fields r

/-- A record is found in an object that has what each field asks for, as
long as the object does not nest too deep. -/
def DecodesAs (format : Format R) (fields : List (FieldDecl R)) : Prop :=
  ∀ given r, (Json.object given).fits nestingLimit = true →
    (∀ field ∈ fields, field.Finds given (FieldDecl.ownNames fields) r) →
    format.decode? (.object given) = some r

/-- A value is found in its own JSON value. -/
def Returns (format : Format α) (a : α) : Prop :=
  format.decode? (format.encode a) = some a

end Format

/-! ## Values -/

/-- A value that has a text of its own and holds no double. -/
inductive Plain : Json → Prop
  | null : Plain null
  | bool (value : Bool) : Plain (bool value)
  | integer (value : Int) : Plain (integer value)
  | string (value : String) : Plain (string value)
  | array {items : List Json} (plain : ∀ item ∈ items, Plain item) : Plain (array items)
  | object {fields : List (String × Json)} (plain : ∀ field ∈ fields, Plain field.2) :
      Plain (object fields)

/-- A value that has a text of its own: the doubles in it are finite. -/
inductive Definite : Json → Prop
  | null : Definite null
  | bool (value : Bool) : Definite (bool value)
  | integer (value : Int) : Definite (integer value)
  | real {value : Double} (finite : value.isFinite = true) : Definite (real value)
  | string (value : String) : Definite (string value)
  | array {items : List Json} (definite : ∀ item ∈ items, Definite item) : Definite (array items)
  | object {fields : List (String × Json)} (definite : ∀ field ∈ fields, Definite field.2) :
      Definite (object fields)

/-- A whole number fits in 64 bits, with a sign if it is below zero. -/
def IsWord (n : Int) : Prop :=
  -9223372036854775808 ≤ n ∧ n < wordLimit

namespace Codec

variable (codec : Codec)

/-- A finite double whose text is read as the same double. -/
structure Survives (x : Double) : Prop where
  finite : x.isFinite = true
  read : codec.read? (codec.write (.real x)) = some (.real x)

/-- A value of which every number is read back: whole numbers have 64 bits,
and doubles survive being written in digits. -/
inductive Legible : Json → Prop
  | null : Legible null
  | bool (value : Bool) : Legible (bool value)
  | integer {value : Int} (h : IsWord value) : Legible (integer value)
  | real {value : Double} (h : codec.Survives value) : Legible (real value)
  | string (value : String) : Legible (string value)
  | array {items : List Json} (legible : ∀ item ∈ items, Legible item) : Legible (array items)
  | object {fields : List (String × Json)} (legible : ∀ field ∈ fields, Legible field.2) :
      Legible (object fields)

/-! ## Laws -/

/-- Everything is written as it is declared. -/
structure EncodesAsDeclared : Prop where
  /-- A kind is a word. -/
  kind : ∀ k, codec.kind.encode k = .string k.name
  /-- A category is a word. -/
  category : ∀ c, codec.category.encode c = .string c.name
  span : codec.span.EncodesAs Span.fields
  limits : codec.limits.EncodesAs Limits.fields
  /-- A result is written as the value in it, without a mark of which it is. -/
  number : ∀ way ∈ Number.variants, ∀ a, codec.number.encode (way.make a) = way.format.encode a
  diagnostic : codec.diagnostic.EncodesAs
    (Diagnostic.fields codec.kind codec.category codec.span)
  log : codec.log.EncodesAs (DiagnosticLog.fields codec.diagnostic)
  report : codec.report.EncodesAs (Report.fields codec.number codec.log)

/-- Everything is read as it is declared. -/
structure DecodesAsDeclared : Prop where
  /-- A kind is found by its word. -/
  kind : ∀ s, codec.kind.decode? (.string s) = FaultKind.ofName? s
  /-- A category is found by its word. -/
  category : ∀ s, codec.category.decode? (.string s) = FaultCategory.ofName? s
  span : codec.span.DecodesAs Span.fields
  limits : codec.limits.DecodesAs Limits.fields
  /-- Of the ways to give a result the first one that fits is taken. -/
  number : ∀ j, codec.number.decode? j =
    Number.variants.findSome? fun way => (way.format.decode? j).map way.make
  diagnostic : codec.diagnostic.DecodesAs
    (Diagnostic.fields codec.kind codec.category codec.span)
  log : codec.log.DecodesAs (DiagnosticLog.fields codec.diagnostic)
  report : codec.report.DecodesAs (Report.fields codec.number codec.log)

/-- A text is read as the value that it was written for, if every number in
it is and it does not nest too deep. -/
def ReadsText : Prop :=
  ∀ j, codec.Legible j → j.fits nestingLimit = true → codec.read? (codec.write j) = some j

/-- The text of a value without doubles is that of no other value. -/
def TellsPlain : Prop :=
  ∀ j j', j.Plain → j'.Definite → codec.write j = codec.write j' → j = j'

end Codec

/-! ## Objects -/

namespace Codec.EncodesAsDeclared

variable {codec : Codec} (hencode : codec.EncodesAsDeclared)

include hencode

theorem number_integer (i : Int64) : codec.number.encode (.integer i) = .integer i.toInt :=
  hencode.number _ List.mem_cons_self i

theorem number_real {x : Double} (hfinite : x.isFinite = true) :
    codec.number.encode (.real x) = .real x :=
  (hencode.number _ (List.mem_cons_of_mem _ List.mem_cons_self) x).trans (if_pos hfinite)

theorem number_real_of_not_finite {x : Double} (hfinite : ¬ x.isFinite = true) :
    codec.number.encode (.real x) = .null :=
  (hencode.number _ (List.mem_cons_of_mem _ List.mem_cons_self) x).trans (if_neg hfinite)

/-- The object of a span. -/
theorem encode_span (s : Span) :
    codec.span.encode s = .object
      [("line", .integer s.first.line.toNat), ("column", .integer s.first.col.toNat),
        ("end_line", .integer s.last.line.toNat), ("end_column", .integer s.last.col.toNat)] :=
  hencode.span s

/-- The object of a diagnostic. -/
theorem encode_diagnostic (d : Diagnostic) :
    codec.diagnostic.encode d = .object (
      [("file", .string d.file), ("kind", .string d.kind.name), ("code", .integer d.code.number),
        ("category", .string d.category.name), ("message", .string d.message),
        ("line", .integer d.span.first.line.toNat), ("column", .integer d.span.first.col.toNat),
        ("end_line", .integer d.span.last.line.toNat),
        ("end_column", .integer d.span.last.col.toNat), ("source_line", .string d.sourceLine)] ++
      match d.suggestion? with
      | some suggestion => [("suggestion", .string suggestion)]
      | none => []) := by
  rw [hencode.diagnostic]
  simp only [FieldDecl.objectOf, Diagnostic.fields, List.flatMap_cons, List.flatMap_nil,
    FieldDecl.written, hencode.encode_span, hencode.kind, hencode.category, List.append_nil]
  cases d.suggestion? <;> rfl

/-- The object of a log. -/
theorem encode_log (log : DiagnosticLog) :
    codec.log.encode log = .object
      [("errors", .array (log.stored.map codec.diagnostic.encode)),
        ("total_errors", .integer log.total)] :=
  hencode.log log

/-- The object of a report. -/
theorem encode_report (r : Report) :
    codec.report.encode r = .object
      [("success", .bool r.success),
        ("value", match r.value? with | some v => codec.number.encode v | none => .null),
        ("display", match r.display? with | some text => .string text | none => .null),
        ("errors", codec.log.encode r.errors)] := by
  obtain ⟨success, value?, display?, errors⟩ := r
  cases value? <;> cases display? <;> exact hencode.report _

end Codec.EncodesAsDeclared

end Abacus.Json
