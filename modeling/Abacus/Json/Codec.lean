import Abacus.Json.Decode
import Abacus.Json.Read
import Abacus.Json.Write

/-!
# Json — Codec

What writes the records as JSON text and reads them back. The program is
given a codec and takes it as it is; the standard one writes each record by
what it declares.
-/

namespace Abacus.Json

/-- What gives JSON values their texts, and records their JSON values. -/
structure Codec where
  write : Json → String
  read? : String → Option Json
  kind : Format FaultKind
  category : Format FaultCategory
  span : Format Span
  limits : Format Limits
  number : Format Number
  diagnostic : Format Diagnostic
  log : Format DiagnosticLog
  report : Format Report

namespace Codec

/-- The text of a value that has a format. -/
def text {α : Type} (codec : Codec) (format : Format α) (value : α) : String :=
  codec.write (format.encode value)

/-- The value that a text stands for in a format. -/
def ofText? {α : Type} (codec : Codec) (format : Format α) (text : String) : Option α :=
  (codec.read? text).bind format.decode?

end Codec

end Abacus.Json

namespace Abacus

open Json

/-! ## The standard codec -/

/-- A kind is given by its word. -/
def FaultKind.format : Format FaultKind where
  encode k := .string k.name
  decode? := ofJson?

/-- A category is given by its word. -/
def FaultCategory.format : Format FaultCategory where
  encode c := .string c.name
  decode? := ofJson?

def Span.format : Format Span where
  encode := FieldDecl.objectOf fields
  decode? := ofJson?

def Limits.format : Format Limits where
  encode := FieldDecl.objectOf fields
  decode? := ofJson?

/-- A result is given as a bare number. -/
def Number.format : Format Number where
  encode
    | .integer value => Format.signed64.encode value
    | .real value => Format.double.encode value
  decode? := ofJson?

def Diagnostic.format : Format Diagnostic where
  encode := FieldDecl.objectOf (fields FaultKind.format FaultCategory.format Span.format)
  decode? := ofJson? 0

def DiagnosticLog.format : Format DiagnosticLog where
  encode := FieldDecl.objectOf (fields Diagnostic.format)
  decode? := ofJson? 0

def Report.format : Format Report where
  encode := FieldDecl.objectOf (fields Number.format DiagnosticLog.format)
  decode? := ofJson?

/-- The codec that goes by what the records declare. -/
def Json.Codec.standard : Codec where
  write := Json.write
  read? text := Json.ofText? text.toList
  kind := FaultKind.format
  category := FaultCategory.format
  span := Span.format
  limits := Limits.format
  number := Number.format
  diagnostic := Diagnostic.format
  log := DiagnosticLog.format
  report := Report.format

end Abacus
