import Abacus.Double.Decimal

/-!
# Numeral

Runs of digits and points. A run is a numeral when it is `digits` or
`digits.digits`; any other run has a defect, and each defect has a hint
that says how to mend it.
-/

namespace Abacus.Numeral

/-- Whether a character belongs to a run of digits and points. -/
def isNumeralChar (c : Char) : Bool :=
  c.isDigit || c == '.'

/-- The number that a list of digits spells. -/
def natOf (digits : List Char) : Nat :=
  digits.foldl (fun n c => 10 * n + (c.toNat - 48)) 0

/-- Whether there is at least one character and all are digits. -/
def isDigits (text : List Char) : Bool :=
  !text.isEmpty && text.all Char.isDigit

/-- The part before the first point, and the part after it if there is a
point. -/
def parts (run : List Char) : List Char × Option (List Char) :=
  match run.span (· != '.') with
  | (whole, []) => (whole, none)
  | (whole, _ :: frac) => (whole, some frac)

/-- Whether a run is `digits` or `digits.digits`. -/
def isNumeral (run : List Char) : Bool :=
  match parts run with
  | (whole, none) => isDigits whole
  | (whole, some frac) => isDigits whole && isDigits frac

/-- The exact value of a numeral. -/
def decimal (run : List Char) : Decimal :=
  match parts run with
  | (whole, none) => ⟨natOf whole, 0⟩
  | (whole, some frac) => ⟨natOf (whole ++ frac), -(frac.length : Int)⟩

/-- The double nearest to a numeral. -/
def value (run : List Char) : Double :=
  .ofDecimal false (decimal run)

/-- What keeps a run from being a numeral. -/
inductive Defect where
  /-- There is nothing but one point. -/
  | lonePoint
  /-- There is more than one point. -/
  | manyPoints
  /-- The point has no digits before it, but these after it. -/
  | leadingPoint (frac : List Char)
  /-- The point has no digits after it, but these before it. -/
  | trailingPoint (whole : List Char)
  | other
deriving DecidableEq

/-- The defect of a run that is not a numeral. -/
def defect (run : List Char) : Defect :=
  if run = ['.'] then .lonePoint
  else if 1 < run.count '.' then .manyPoints
  else if run.head? = some '.' then .leadingPoint run.tail
  else if run.getLast? = some '.' then .trailingPoint run.dropLast
  else .other

/-- The numerals that a hint offers instead of the run. -/
def Defect.repairs : Defect → List (List Char)
  | leadingPoint frac => ['0' :: '.' :: frac]
  | trailingPoint whole => [whole, whole ++ ['.', '0']]
  | _ => []

/-- A repair as it is quoted in a hint. -/
def quoted (run : List Char) : String :=
  "'" ++ String.ofList run ++ "'"

/-- How to mend a defect. -/
def Defect.hint (d : Defect) : String :=
  match d, d.repairs with
  | lonePoint, _ => "a decimal point must sit between digits"
  | manyPoints, _ => "a number may contain at most one decimal point"
  | _, [padded] => "write a leading zero: " ++ quoted padded
  | _, [whole, padded] =>
    "drop the trailing point (" ++ quoted whole ++ ") or add a fraction (" ++ quoted padded ++ ")"
  | _, _ => "numbers are written as digits with an optional fractional part"

end Abacus.Numeral
