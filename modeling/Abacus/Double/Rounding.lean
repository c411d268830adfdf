import Abacus.Double.Basic

/-!
# Double — Rounding

Every operation on doubles that can be inexact ends here: an exact
quotient of quanta is rounded to the nearest double, a tie to the even
one. Rounding fixes a spacing first — one quantum, doubled until the
quotient has at most 53 binary digits — and rounds the quotient counted
in that spacing; the code of the result is then one addition, in which a
carry into the next binade, and gradual underflow, come out right by
themselves.
-/

namespace Abacus

/-- The whole number nearest to `num / den`, a tie to the even one. -/
def roundQuotient (num den : Nat) : Nat :=
  let low := num / den
  let twice := 2 * (num % den)
  if twice < den then low
  else if den < twice then low + 1
  else low + low % 2

/-- An exact quotient rounds to itself. -/
theorem roundQuotient_mul {k den : Nat} (h : 0 < den) :
    roundQuotient (k * den) den = k := by
  simp [roundQuotient, Nat.mul_div_cancel k h, h]

/-- A common factor of a quotient does not change its rounding. -/
theorem roundQuotient_mul_mul (num den : Nat) {k : Nat} (h : 0 < k) :
    roundQuotient (num * k) (den * k) = roundQuotient num den := by
  have hlt : ∀ a b : Nat, a * k < b * k ↔ a < b := fun a b => Nat.mul_lt_mul_right h
  simp only [roundQuotient, Nat.mul_div_mul_right _ _ h, Nat.mul_mod_mul_right,
    ← Nat.mul_assoc, hlt]

namespace Double

/-- How often the spacing is doubled for a magnitude of `q` whole quanta:
until `q` counted in it has at most 53 binary digits. -/
def spacing (q : Nat) : Nat :=
  q.log2 - 52

/-- The double nearest to `num / den` quanta; a magnitude that rounds past
the last code is infinite. -/
def ofQuotient (negative : Bool) (num den : Nat) : Double :=
  let s := spacing (num / den)
  let code := s * binade + roundQuotient num (Nat.shiftLeft den s)
  if h : code < codeCount then .finite negative ⟨code, h⟩
  else .infinite negative

/-- A common factor of a quotient does not change the double nearest to
it. -/
theorem ofQuotient_mul_mul (negative : Bool) (num den : Nat) {k : Nat} (h : 0 < k) :
    ofQuotient negative (num * k) (den * k) = ofQuotient negative num den := by
  have hs : ∀ s : Nat, Nat.shiftLeft (den * k) s = Nat.shiftLeft den s * k := by
    intro s
    show (den * k) <<< s = (den <<< s) * k
    simp only [Nat.shiftLeft_eq, Nat.mul_right_comm]
  simp only [ofQuotient, Nat.mul_div_mul_right _ _ h, hs, roundQuotient_mul_mul _ _ h]

/-- The spacing of a magnitude below two binades is one quantum. -/
theorem spacing_of_lt {q : Nat} (h : q < 2 * binade) : spacing q = 0 := by
  have : q.log2 ≤ 52 := by
    rcases Nat.eq_zero_or_pos q with rfl | hq
    · decide
    · have := (Nat.log2_lt (n := q) (k := 53) (by omega)).2 h
      omega
  unfold spacing
  omega

/-- Each doubling adds one binary digit. -/
private theorem log2_shiftLeft {m : Nat} (s : Nat) (h : m ≠ 0) :
    (Nat.shiftLeft m s).log2 = m.log2 + s := by
  induction s generalizing m with
  | zero => rfl
  | succ s ih =>
    show (Nat.shiftLeft (2 * m) s).log2 = m.log2 + (s + 1)
    rw [ih (by omega), Nat.log2_two_mul h]
    omega

/-- A magnitude of 53 binary digits, shifted, has the shift for its
spacing. -/
theorem spacing_shiftLeft {m s : Nat} (h : binade ≤ m) (h' : m < 2 * binade) :
    spacing (Nat.shiftLeft m s) = s := by
  have hm : m ≠ 0 := by
    have : 0 < binade := by decide
    omega
  have hlog : m.log2 = 52 := by
    have h1 := (Nat.log2_lt (n := m) (k := 53) hm).2 h'
    have h2 := (Nat.le_log2 (n := m) (k := 52) hm).2 h
    omega
  have := log2_shiftLeft s hm
  unfold spacing
  omega

/-- **A finite double is the rounding of its own quanta.** -/
theorem ofQuotient_quanta (negative : Bool) (c : Fin codeCount) :
    ofQuotient negative (quanta c) 1 = .finite negative c := by
  have key : spacing (quanta c) * binade
      + roundQuotient (quanta c) (Nat.shiftLeft 1 (spacing (quanta c))) = c.val := by
    by_cases h : c.val < binade
    · have hq := quanta_of_lt h
      have hs : spacing (quanta c) = 0 := by
        rw [hq]
        exact spacing_of_lt (by omega)
      rw [hs, hq]
      have : roundQuotient (c.val * 1) 1 = c.val := roundQuotient_mul (by decide)
      simpa using this
    · have hb : binade ≠ 0 := by decide
      have hq : quanta c
          = Nat.shiftLeft (binade + c.val % binade) (c.val / binade - 1) := by
        simp [quanta, h]
      have hlt : c.val % binade < binade := Nat.mod_lt _ (by decide)
      have hs := spacing_shiftLeft (m := binade + c.val % binade)
        (s := c.val / binade - 1) (by omega) (by omega)
      have hd : 1 ≤ c.val / binade := (Nat.one_le_div_iff (by decide)).2 (by omega)
      rw [hq, hs]
      have hsl : ∀ m s : Nat, Nat.shiftLeft m s = m * Nat.shiftLeft 1 s := by
        intro m s
        rw [show Nat.shiftLeft m s = m <<< s from rfl,
          show Nat.shiftLeft 1 s = 1 <<< s from rfl, Nat.shiftLeft_eq, Nat.one_shiftLeft]
      rw [hsl]
      have hpos : 0 < Nat.shiftLeft 1 (c.val / binade - 1) := by
        rw [show Nat.shiftLeft 1 (c.val / binade - 1) = 1 <<< (c.val / binade - 1) from rfl,
          Nat.one_shiftLeft]
        exact Nat.two_pow_pos _
      rw [roundQuotient_mul hpos]
      have hdm := Nat.div_add_mod c.val binade
      generalize c.val / binade = d at *
      have : (d - 1) * binade + binade = binade * d := by
        rw [← Nat.succ_mul, Nat.succ_eq_add_one, Nat.sub_add_cancel hd, Nat.mul_comm]
      omega
  unfold ofQuotient
  simp only [Nat.div_one]
  rw [dif_pos (by rw [key]; exact c.isLt)]
  congr 1
  exact Fin.ext key

end Double

end Abacus
