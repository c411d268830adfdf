import Abacus.Json.Numeral
import Abacus.Number

/-!
# Json — Format

How values are given as JSON values and taken back from them. A record says
so field by field: under which name a field goes, and what is done about one
that is absent. The fields of a record inside it may stand among its own.
-/

namespace Abacus.Json

/-- How the values of a type become JSON values, and how they are found in
them. -/
structure Format (α : Type) where
  encode : α → Json
  decode? : Json → Option α

namespace Format

/-- What `null` or the given reader can read. -/
def orNull? {α : Type} (decode? : Json → Option α) : Json → Option (Option α)
  | null => some none
  | value => (decode? value).map some

/-- A whole number from zero up to a bound, the bound left out. -/
def below? (bound : Nat) : Json → Option Nat
  | .integer (.ofNat n) => if n < bound then some n else none
  | _ => none

/-- Whole numbers below a bound. -/
def below (bound : Nat) : Format Nat where
  encode n := .integer n
  decode? := below? bound

/-- Numbers of 16 bits. -/
def word16 : Format Nat := below 65536

/-- Numbers of 32 bits. -/
def word32 : Format Nat := below UInt32.size

/-- Numbers of 64 bits. -/
def word64 : Format Nat := below wordLimit

/-- Lines and columns. -/
def counter : Format UInt32 where
  encode n := word32.encode n.toNat
  decode? j := (word32.decode? j).map UInt32.ofNat

/-- Truth values. -/
def bool : Format Bool where
  encode := .bool
  decode?
    | .bool value => some value
    | _ => none

/-- Strings. -/
def text : Format String where
  encode := .string
  decode?
    | .string value => some value
    | _ => none

/-- Whole numbers of 64 bits with a sign. -/
def signed64 : Format Int64 where
  encode n := .integer n.toInt
  decode?
    | .integer n => if Number.fits n then some (Int64.ofInt n) else none
    | _ => none

/-- Doubles. What is not finite is no number in JSON; a whole number is read
as the double nearest to it. -/
def double : Format Double where
  encode x := if x.isFinite then .real x else .null
  decode?
    | .integer n => some (.ofInt n)
    | .real x => some x
    | _ => none

/-- Lists of values. -/
def list {α : Type} (format : Format α) : Format (List α) where
  encode xs := .array (xs.map format.encode)
  decode?
    | .array items => items.mapM format.decode?
    | _ => none

/-- What is read back one by one is read back as a list. -/
theorem mapM_map_eq_some {α β : Type} {encode : α → β} {decode? : β → Option α} {xs : List α}
    (h : ∀ x ∈ xs, decode? (encode x) = some x) : (xs.map encode).mapM decode? = some xs := by
  induction xs with
  | nil => rfl
  | cons x xs ih =>
    obtain ⟨hx, hxs⟩ := List.forall_mem_cons.1 h
    rw [List.map_cons, List.mapM_cons, hx, ih hxs]
    rfl

end Format

/-! ## Records -/

/-- What a record declares of one of its fields. -/
inductive FieldDecl (R : Type) where
  /-- A field that has to be there. -/
  | plain {α : Type} (name : String) (get : R → α) (format : Format α)
  /-- A field that is given always, and has a fixed value when it is missing. -/
  | defaulted {α : Type} (name : String) (get : R → α) (absent : α) (format : Format α)
  /-- A field that is `null` when there is no value. -/
  | nullable {α : Type} (name : String) (get : R → Option α) (format : Format α)
  /-- A field that is left out when there is no value. -/
  | optional {α : Type} (name : String) (get : R → Option α) (format : Format α)
  /-- A record whose fields stand among those of the record around it. -/
  | flattened {α : Type} (get : R → α) (format : Format α)

namespace FieldDecl

variable {R : Type}

/-- The name of a field; a flattened record has none. -/
def name? : FieldDecl R → Option String
  | plain name .. | defaulted name .. | nullable name .. | optional name .. => some name
  | flattened .. => none

/-- What a field adds to the object for a record. -/
def written (r : R) : FieldDecl R → List (String × Json)
  | plain name get format => [(name, format.encode (get r))]
  | defaulted name get _ format => [(name, format.encode (get r))]
  | nullable name get format =>
    [(name, match get r with | some value => format.encode value | none => .null)]
  | optional name get format =>
    match get r with
    | some value => [(name, format.encode value)]
    | none => []
  | flattened get format =>
    match format.encode (get r) with
    | .object fields => fields
    | _ => []

/-- The object for a record: what its fields add, in order. -/
def objectOf (fields : List (FieldDecl R)) (r : R) : Json :=
  .object (fields.flatMap (written r))

end FieldDecl

/-- One of the ways in which a value of a type may be given, when nothing in
the JSON value says which it is. -/
structure Variant (R : Type) where
  {α : Type}
  make : α → R
  format : Format α

end Abacus.Json
