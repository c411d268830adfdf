import Abacus.Double.Decimal

/-!
# Double — Shortest

The shortest decimal number that reads back to a given finite double. For
one digit, two digits and so on the value has two neighbours on the grid of
decimal numbers with that many digits; the first grid on which a neighbour
reads back wins, and of two neighbours that do, the nearer one.
-/

namespace Abacus.Double

/-- What is chosen when two decimal numbers are equally near. -/
inductive Tie where
  /-- The one with the even last digit. -/
  | even
  /-- The one farther from zero. -/
  | away
deriving DecidableEq

/-- The place of the leading decimal digit of a magnitude of `q > 0`
quanta: the value is below ten to this power, and not below a tenth of
that. -/
def leadingPlace (q : Nat) : Int :=
  if unit ≤ q then (Decimal.digitsOf (q / unit)).length
  else 1 - (Decimal.digitsOf ((unit - 1) / q)).length

/-- A magnitude of `q` quanta counted in `10 ^ exponent`, as a quotient. -/
def inDecimalUnits (q : Nat) (exponent : Int) : Nat × Nat :=
  match exponent with
  | .ofNat e => (q, unit * Nat.pow 10 e)
  | .negSucc e => (q * Nat.pow 10 (e + 1), unit)

/-- The exact value of a magnitude of `q` quanta as a decimal number. -/
def exactDecimal (q : Nat) : Decimal :=
  ⟨q * Nat.pow 5 halvings, -(halvings : Int)⟩

/-- The neighbour of the magnitude with code `c` on the grid of `n`-digit
decimal numbers that reads back to it, the nearer one of two. -/
def neighbour? (tie : Tie) (c : Fin codeCount) (n : Nat) : Option Decimal :=
  let q := quanta c
  let exponent := leadingPlace q - n
  let (num, den) := inDecimalUnits q exponent
  let low := num / den
  let twice := 2 * (num % den)
  let below : Decimal := ⟨low, exponent⟩
  let above : Decimal :=
    if low + 1 = Nat.pow 10 n then ⟨1, exponent + n⟩ else ⟨low + 1, exponent⟩
  let readsBack := fun d => decide (ofDecimal false d = .finite false c)
  let belowFirst := twice < den ∨ (twice = den ∧ tie = .even ∧ low % 2 = 0)
  let (first, second) := if belowFirst then (below, above) else (above, below)
  if readsBack first then some first
  else if readsBack second then some second
  else none

/-- The shortest decimal number that reads back to the magnitude with code
`c`. Seventeen digits are always enough; the exact value stands behind them
so that reading back needs no proof of that. -/
def shortest (tie : Tie) (c : Fin codeCount) : Decimal :=
  ((List.range 17).findSome? fun i => neighbour? tie c (i + 1)).getD
    (exactDecimal (quanta c))

/-- A magnitude in quanta is read back from its exact decimal. -/
theorem ofDecimal_exactDecimal (q : Nat) :
    ofDecimal false (exactDecimal q) = ofQuotient false q 1 := by
  have key : ∀ n e : Nat, n = e + 1 → unit = Nat.pow 2 n →
      ofDecimal false ⟨q * Nat.pow 5 n, -(n : Int)⟩ = ofQuotient false q 1 := by
    rintro n e rfl hu
    have hten : Nat.pow 5 (e + 1) * unit = Nat.pow 10 (e + 1) := by
      rw [hu]
      exact (Nat.mul_pow 5 2 (e + 1)).symm
    have hpos : 0 < Nat.pow 10 (e + 1) := Nat.pow_pos (by decide)
    show ofQuotient false (q * Nat.pow 5 (e + 1) * unit) (Nat.pow 10 (e + 1)) = _
    rw [Nat.mul_assoc, hten]
    generalize Nat.pow 10 (e + 1) = k at *
    have := ofQuotient_mul_mul false q 1 hpos
    rwa [Nat.one_mul] at this
  exact key halvings 1073 rfl (by unfold unit; rfl)

/-- A neighbour that is chosen reads back. -/
theorem ofDecimal_neighbour? {tie : Tie} {c : Fin codeCount} {n : Nat} {d : Decimal}
    (h : neighbour? tie c n = some d) : ofDecimal false d = .finite false c := by
  unfold neighbour? at h
  dsimp only at h
  repeat' split at h
  all_goals simp_all

/-- **The shortest decimal number of a magnitude reads back to it.** -/
theorem ofDecimal_shortest (tie : Tie) (c : Fin codeCount) :
    ofDecimal false (shortest tie c) = .finite false c := by
  unfold shortest
  cases h : (List.range 17).findSome? fun i => neighbour? tie c (i + 1) with
  | none =>
    show ofDecimal false (exactDecimal (quanta c)) = _
    rw [ofDecimal_exactDecimal, ofQuotient_quanta]
  | some d =>
    obtain ⟨i, _, hi⟩ := List.exists_of_findSome?_eq_some h
    exact ofDecimal_neighbour? hi

/-- The text of a double without an exponent: its shortest digits, a tie
rounded away from zero. -/
def toPlain : Double → List Char
  | nan => ['N', 'a', 'N']
  | infinite negative => if negative then ['-', 'i', 'n', 'f'] else ['i', 'n', 'f']
  | finite negative c =>
    let text := if c.val = 0 then ['0'] else (shortest .away c).plain
    if negative then '-' :: text else text

end Abacus.Double
