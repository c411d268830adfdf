import Abacus.Double.Rounding

/-!
# Double — Arithmetic

The four operations, each the exact result on the quanta of its operands,
rounded once. What is not finite follows the usual algebra of infinities;
where that has no answer the result is not a number.
-/

namespace Abacus.Double

/-- The double nearest to a whole number of quanta. -/
def ofQuanta (q : Int) : Double :=
  ofQuotient (q < 0) q.natAbs 1

/-- The sum. A sum that is exactly zero is the negative zero only when both
operands are negative. -/
def add : Double → Double → Double
  | infinite a, infinite b => if a == b then infinite a else nan
  | infinite a, finite .. => infinite a
  | finite .., infinite b => infinite b
  | finite a c, finite b d =>
    let q := signed a (quanta c) + signed b (quanta d)
    if q = 0 then zero (a && b) else ofQuanta q
  | _, _ => nan

/-- The difference: the sum with the opposite. -/
def sub (x y : Double) : Double :=
  add x y.neg

/-- The product. -/
def mul : Double → Double → Double
  | infinite a, infinite b => infinite (a ^^ b)
  | infinite a, finite b d => if d.val = 0 then nan else infinite (a ^^ b)
  | finite a c, infinite b => if c.val = 0 then nan else infinite (a ^^ b)
  | finite a c, finite b d => ofQuotient (a ^^ b) (quanta c * quanta d) unit
  | _, _ => nan

/-- The quotient. -/
def div : Double → Double → Double
  | infinite a, finite b _ => infinite (a ^^ b)
  | finite a _, infinite b => zero (a ^^ b)
  | finite a c, finite b d =>
    if d.val = 0 then
      if c.val = 0 then nan else infinite (a ^^ b)
    else ofQuotient (a ^^ b) (quanta c * unit) (quanta d)
  | _, _ => nan

/-- The double nearest to a whole number. -/
def ofInt (n : Int) : Double :=
  ofQuotient (n < 0) (n.natAbs * unit) 1

/-- The whole number a double is exactly equal to, if there is one. -/
def toInt? (x : Double) : Option Int :=
  match x.signedQuanta? with
  | some q => if q % unit = 0 then some (q / unit) else none
  | none => none

/-! ## How signs move -/

/-- Subtracting the opposite adds. -/
theorem sub_neg (x y : Double) : sub x y.neg = add x y := by
  rw [sub, neg_neg]

/-- Adding the opposite subtracts. -/
theorem add_neg (x y : Double) : add x y.neg = sub x y := rfl

/-- Rounding commutes with the sign. -/
theorem neg_ofQuotient (negative : Bool) (num den : Nat) :
    (ofQuotient negative num den).neg = ofQuotient (!negative) num den := by
  unfold ofQuotient
  simp only []
  split <;> rfl

private theorem not_xor (a b : Bool) : ((!a) ^^ b) = !(a ^^ b) := by
  cases a <;> cases b <;> rfl

/-- A sign moves out of a product. -/
theorem neg_mul (x y : Double) : mul x.neg y = (mul x y).neg := by
  rcases x with _ | a | ⟨a, c⟩ <;> rcases y with _ | b | ⟨b, d⟩
  case finite.finite => rw [mul, neg_ofQuotient, ← not_xor]; rfl
  case infinite.infinite => rw [neg, mul, not_xor]; rfl
  case infinite.finite => rw [neg, mul, not_xor, mul]; split <;> rfl
  case finite.infinite => rw [neg, mul, not_xor, mul]; split <;> rfl
  all_goals rfl

/-- A sign moves out of a quotient. -/
theorem neg_div (x y : Double) : div x.neg y = (div x y).neg := by
  rcases x with _ | a | ⟨a, c⟩ <;> rcases y with _ | b | ⟨b, d⟩
  case finite.finite =>
    rw [neg, div, not_xor, div]
    split
    · split <;> rfl
    · rw [neg_ofQuotient]
  case infinite.finite => rw [neg, div, not_xor]; rfl
  case finite.infinite => rw [neg, div, not_xor]; rfl
  all_goals rfl

end Abacus.Double
