import Abacus.Double.Arithmetic
import Abacus.Double.Shortest

/-!
# Number

The result of a calculation. A double that is exactly a whole number of 64
bits becomes that number; every other double stays as it is.
-/

namespace Abacus

/-- A whole number of 64 bits, or a double. -/
inductive Number where
  | integer (value : Int64)
  | real (value : Double)
deriving DecidableEq

namespace Number

/-- Whether a whole number fits in 64 bits with a sign. -/
def fits (n : Int) : Bool :=
  -9223372036854775808 ≤ n && n < 9223372036854775808

/-- The result for a double. -/
def ofDouble (x : Double) : Number :=
  match x.toInt? with
  | some n => if fits n then integer (Int64.ofInt n) else real x
  | none => real x

/-- The double nearest to a result. -/
def toDouble : Number → Double
  | integer value => .ofInt value.toInt
  | real value => value

/-- The text of a result. -/
def text : Number → String
  | integer value => toString value.toInt
  | real value => String.ofList value.toPlain

/-- A double becomes a whole number exactly when it is one that fits. -/
theorem ofDouble_eq_integer_iff {x : Double} {i : Int64} :
    ofDouble x = integer i ↔
      ∃ n, x.toInt? = some n ∧ fits n = true ∧ Int64.ofInt n = i := by
  unfold ofDouble
  split
  · rename_i n h
    split <;> simp_all
  · simp_all

/-- A double stays as it is exactly when it is no whole number that fits. -/
theorem ofDouble_eq_real_iff {x y : Double} :
    ofDouble x = real y ↔ x = y ∧ ∀ n, x.toInt? = some n → fits n = false := by
  unfold ofDouble
  split
  · split <;> simp_all
  · simp_all

end Number

end Abacus
