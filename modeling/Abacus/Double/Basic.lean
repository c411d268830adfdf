/-!
# Double — Basic

Binary floating point numbers of 64 bits, as data. A finite magnitude is
named by its CODE: the magnitudes in increasing order are numbered from
code 0 (zero) without a gap, which is also how the word format numbers
them. Every finite magnitude is a whole number of QUANTA, the quantum
being the least positive magnitude, two to the power -1074; so the exact
value of a finite double is an integer (`signedQuanta`), and exact
arithmetic on doubles is integer arithmetic.
-/

namespace Abacus

/-- The number of finite magnitudes: 2047 binades of `2 ^ 52` each. -/
abbrev Double.codeCount : Nat := 2047 * 4503599627370496

/-- A binary floating point number of 64 bits. All not-a-number words are
one value. -/
inductive Double where
  | nan
  /-- Beyond every finite magnitude. -/
  | infinite (negative : Bool)
  /-- The finite magnitude with the given code, zero included. -/
  | finite (negative : Bool) (code : Fin Double.codeCount)
deriving DecidableEq

namespace Double

/-- The number of magnitudes in one binade, `2 ^ 52`. -/
def binade : Nat := 4503599627370496

/-- How many halvings lead from the number one to the quantum. -/
def halvings : Nat := 1074

/-- The number of quanta in the number one. -/
@[irreducible] def unit : Nat := Nat.pow 2 halvings

/-- The magnitude with code `c`, counted in quanta. The first two binades
are spaced by one quantum; each later one is spaced twice as wide as the
one before it. -/
def quanta (c : Nat) : Nat :=
  if c < binade then c
  else Nat.shiftLeft (binade + c % binade) (c / binade - 1)

/-- The double zero with a sign. -/
def zero (negative : Bool) : Double :=
  .finite negative ⟨0, by decide⟩

/-- Whether a double is neither infinite nor not a number. -/
def isFinite : Double → Bool
  | finite .. => true
  | _ => false

/-- Whether a double is one of the two zeros. -/
def isZero : Double → Bool
  | finite _ c => c.val == 0
  | _ => false

/-- A magnitude in quanta, with a sign. -/
def signed (negative : Bool) (magnitude : Nat) : Int :=
  if negative then -(magnitude : Int) else magnitude

/-- The exact value in quanta, when there is one. -/
def signedQuanta? : Double → Option Int
  | finite negative c => some (signed negative (quanta c))
  | _ => none

/-- The double with the opposite sign. -/
def neg : Double → Double
  | nan => nan
  | infinite negative => infinite !negative
  | finite negative c => finite (!negative) c

/-- Numeric equality: the two zeros are equal and not-a-number differs
from everything, itself included. -/
def numEq : Double → Double → Bool
  | infinite a, infinite b => a == b
  | finite a c, finite b d => c == d && (a == b || c.val == 0)
  | _, _ => false

/-! ## Words -/

/-- The sign bit of a word. -/
def signBit : Nat := 9223372036854775808

/-- The word of a double: the sign bit, then the code. The codes past the
finite ones stand for infinity and not-a-number. -/
def toBits : Double → Nat
  | nan => codeCount + binade / 2
  | infinite negative => (if negative then signBit else 0) + codeCount
  | finite negative c => (if negative then signBit else 0) + c

/-- The double a word stands for. -/
def ofBits (word : Nat) : Double :=
  let negative := signBit ≤ word
  let c := word % signBit
  if h : c < codeCount then .finite negative ⟨c, h⟩
  else if c = codeCount then .infinite negative
  else .nan

/-- A code below one binade is its own number of quanta. -/
theorem quanta_of_lt {c : Nat} (h : c < binade) : quanta c = c := by
  simp [quanta, h]

/-- A double is read back from its word. -/
theorem ofBits_toBits (x : Double) : ofBits x.toBits = x := by
  cases x with
  | nan => decide
  | infinite negative => cases negative <;> decide
  | finite negative c =>
    have hc : c.val < codeCount := c.isLt
    have hs : codeCount < signBit := by decide
    cases negative with
    | false =>
      have hm : c.val % signBit = c.val := Nat.mod_eq_of_lt (by omega)
      have hn : ¬ signBit ≤ c.val := by omega
      simp only [toBits, ofBits, Bool.false_eq_true, if_false, Nat.zero_add, hm]
      simp [hn]
    | true =>
      have hm : (signBit + c.val) % signBit = c.val := by
        rw [Nat.add_mod_left, Nat.mod_eq_of_lt (by omega)]
      have hn : signBit ≤ signBit + c.val := by omega
      simp only [toBits, ofBits, if_true, hm]
      simp [hn]

/-- Negation is undone by negation. -/
@[simp] theorem neg_neg (x : Double) : x.neg.neg = x := by
  cases x <;> simp [neg]

/-- Negation keeps finiteness. -/
@[simp] theorem isFinite_neg (x : Double) : x.neg.isFinite = x.isFinite := by
  cases x <;> rfl

/-- Negation keeps the zeros. -/
@[simp] theorem isZero_neg (x : Double) : x.neg.isZero = x.isZero := by
  cases x <;> rfl

end Double

end Abacus
