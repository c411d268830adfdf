import Abacus.Double.Rounding

/-!
# Double — Decimal

Decimal numbers as data, the double nearest to one, and the way a decimal
number is written without an exponent.
-/

namespace Abacus

/-- The decimal number `digits · 10 ^ exponent`. -/
structure Decimal where
  /-- The digits, read as one whole number. -/
  digits : Nat
  /-- The power of ten they are counted in. -/
  exponent : Int
deriving DecidableEq

namespace Decimal

/-- The value as a quotient of whole numbers. -/
def quotient (d : Decimal) : Nat × Nat :=
  match d.exponent with
  | .ofNat e => (d.digits * Nat.pow 10 e, 1)
  | .negSucc e => (d.digits, Nat.pow 10 (e + 1))

/-- The decimal text of a whole number, as characters. -/
def digitsOf (n : Nat) : List Char :=
  Nat.toDigits 10 n

/-- The text without an exponent: zeros are filled in up to the point, and
there is no point after a whole number. -/
def plain (d : Decimal) : List Char :=
  let ds := digitsOf d.digits
  match d.exponent with
  | .ofNat e => ds ++ List.replicate e '0'
  | .negSucc e =>
    let places := e + 1
    if places < ds.length then
      ds.take (ds.length - places) ++ '.' :: ds.drop (ds.length - places)
    else '0' :: '.' :: (List.replicate (places - ds.length) '0' ++ ds)

end Decimal

/-- The double nearest to a decimal number with a sign. -/
def Double.ofDecimal (negative : Bool) (d : Decimal) : Double :=
  let (num, den) := d.quotient
  .ofQuotient negative (num * unit) den

end Abacus
