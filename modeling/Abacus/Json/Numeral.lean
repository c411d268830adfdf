import Abacus.Double.Arithmetic
import Abacus.Double.Decimal
import Abacus.Json.Basic
import Abacus.Numeral

/-!
# Json — Numeral

Numbers in JSON text. A whole number of 64 bits is read exactly. Any other
number is read as a double in two steps: its leading digits as one whole
number of 64 bits, rounded to a double, and then one multiplication or
division by a power of ten; so the result can be one unit away from the
nearest double. The digits that no longer fit in 64 bits only move the
point.
-/

namespace Abacus.Json

/-- The parts of a number. -/
structure Literal where
  negative : Bool
  /-- The digits before the point. -/
  whole : List Char
  /-- The digits after the point, when there is one. -/
  frac? : Option (List Char)
  exponent? : Option Int

/-- The exponent after the `e`: digits, with or without a sign. -/
def exponent? (text : List Char) : Option Int :=
  let (negative, digits) :=
    match text with
    | '-' :: digits => (true, digits)
    | '+' :: digits => (false, digits)
    | digits => (false, digits)
  if Numeral.isDigits digits then
    some (if negative then -(Numeral.natOf digits : Int) else Numeral.natOf digits)
  else none

/-- The parts of a number, if the text is one: no needless zero in front,
and at least one digit wherever there are any. -/
def literal? (text : List Char) : Option Literal :=
  let (negative, text) :=
    match text with
    | '-' :: text => (true, text)
    | text => (false, text)
  let (whole, text) := text.span Char.isDigit
  let proper := whole = ['0'] ∨ (whole ≠ [] ∧ whole.head? ≠ some '0')
  let (frac?, text) :=
    match text with
    | '.' :: text =>
      let (frac, text) := text.span Char.isDigit
      (some frac, text)
    | text => (none, text)
  if ¬ proper ∨ frac? = some [] then none
  else
    match text with
    | [] => some ⟨negative, whole, frac?, none⟩
    | e :: text =>
      if e = 'e' ∨ e = 'E' then
        (exponent? text).map fun exponent => ⟨negative, whole, frac?, some exponent⟩
      else none

/-- The least number that takes more than 64 bits. -/
def wordLimit : Nat := 18446744073709551616

/-- Digits read into 64 bits, and how many were taken. -/
structure Leading where
  value : Nat
  /-- How many digits were taken into it. -/
  taken : Nat
  /-- Whether a digit did not fit, after which none is taken. -/
  full : Bool

/-- Takes one more digit if it fits. -/
def Leading.take (l : Leading) (digit : Char) : Leading :=
  let value := 10 * l.value + (digit.toNat - 48)
  if l.full then l
  else if value < wordLimit then ⟨value, l.taken + 1, false⟩
  else { l with full := true }

/-- Reads as many digits as fit, going on from `value`. -/
def leading (value : Nat) (digits : List Char) : Leading :=
  digits.foldl Leading.take ⟨value, 0, false⟩

/-- The double nearest to a power of ten. -/
def powerOfTen (n : Nat) : Double :=
  .ofDecimal false ⟨1, n⟩

/-- A double moved by a power of ten. There is no result when it is too
large; below the range it ends in zero. -/
def scale? (x : Double) (exponent : Int) : Option Double :=
  if 308 < exponent then
    if x.isZero then some x else none
  else if 0 ≤ exponent then
    let y := x.mul (powerOfTen exponent.natAbs)
    if y.isFinite then some y else none
  else if -308 ≤ exponent then some (x.div (powerOfTen exponent.natAbs))
  else if -616 ≤ exponent then
    some ((x.div (powerOfTen 308)).div (powerOfTen (exponent.natAbs - 308)))
  else some (.zero false)

/-- The value of a number that is not read exactly. -/
def Literal.real (l : Literal) : Json :=
  let before := leading 0 l.whole
  let after := leading before.value (l.frac?.getD [])
  let exponent : Int :=
    (l.whole.length - before.taken : Nat) - (after.taken : Int) + l.exponent?.getD 0
  match scale? (.ofInt after.value) exponent with
  | some x => .real (if l.negative then x.neg else x)
  | none => unusable

/-- The value of a number. The negative zero is not a whole number. -/
def Literal.value (l : Literal) : Json :=
  match l.frac?, l.exponent? with
  | none, none =>
    let n := Numeral.natOf l.whole
    if l.negative then
      if 0 < n ∧ n ≤ 9223372036854775808 then .integer (-(n : Int)) else l.real
    else if n < wordLimit then .integer n
    else l.real
  | _, _ => l.real

end Abacus.Json
