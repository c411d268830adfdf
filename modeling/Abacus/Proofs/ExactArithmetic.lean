import Abacus.Proofs.Evaluation
import Abacus.Proofs.ReadBack
import Mathlib.Algebra.Order.Field.Rat
import Mathlib.Tactic.FieldSimp
import Mathlib.Tactic.Ring

/-!
# ExactArithmetic

The exact values of doubles, as rational numbers, and where arithmetic on
doubles is exact. Everything that can be inexact is one rounding of an exact
quotient of quanta, and a quotient that is the magnitude of some double is
rounded to that double. So a result that is representable is the exact one,
up to the sign of a zero.
-/

namespace Abacus

namespace Double

variable {a b : Bool} {c d : Fin codeCount} {x y : Double} {p q : ℚ} {n : ℤ} {num den : Nat}

/-- The exact value of a finite double. -/
def toRat? (x : Double) : Option ℚ :=
  x.signedQuanta?.map fun s => (s : ℚ) / (unit : ℚ)

/-- A number that some finite double is exactly. -/
def Representable (q : ℚ) : Prop :=
  ∃ x : Double, x.toRat? = some q

/-! ## Exact values -/

theorem unit_ne_zero : (unit : ℚ) ≠ 0 :=
  Nat.cast_ne_zero.2 unit_pos.ne'

theorem toRat?_finite (a : Bool) (c : Fin codeCount) :
    (finite a c).toRat? = some ((signed a (quanta c) : ℚ) / unit) := rfl

/-- A double with an exact value is finite, and the value counted in quanta
is its magnitude with its sign. -/
theorem toRat?_eq_some_iff :
    x.toRat? = some q ↔ ∃ a c, x = finite a c ∧ q * unit = signed a (quanta c) := by
  constructor
  · intro h
    cases x with
    | finite a c =>
      rw [toRat?_finite, Option.some.injEq] at h
      refine ⟨a, c, rfl, ?_⟩
      rw [← h, div_mul_cancel₀ _ unit_ne_zero]
    | _ => cases h
  · rintro ⟨a, c, rfl, h⟩
    rw [toRat?_finite, Option.some.injEq, ← h, mul_div_cancel_right₀ _ unit_ne_zero]

theorem isFinite_of_toRat? (h : x.toRat? = some q) : x.isFinite = true := by
  obtain ⟨a, c, rfl, -⟩ := toRat?_eq_some_iff.1 h
  rfl

/-- A double is a zero when its exact value is. -/
theorem ne_zero_of_toRat? (h : x.toRat? = some q) (hq : q ≠ 0) : x.isZero = false := by
  obtain ⟨a, c, rfl, hquanta⟩ := toRat?_eq_some_iff.1 h
  refine Bool.eq_false_iff.2 fun hzero => hq ?_
  have hc : quanta c = 0 := by
    rw [beq_iff_eq.1 hzero]
    exact quanta_of_lt (by decide)
  rw [hc] at hquanta
  have hsigned : signed a 0 = 0 := by cases a <;> rfl
  rw [hsigned, Int.cast_zero] at hquanta
  exact (mul_eq_zero.1 hquanta).resolve_right unit_ne_zero

theorem toRat?_zero (a : Bool) : (zero a).toRat? = some 0 := by
  refine toRat?_eq_some_iff.2 ⟨a, _, rfl, ?_⟩
  cases a <;> simp [signed, quanta_of_lt (show 0 < binade by decide)]

theorem toRat?_neg (h : x.toRat? = some q) : x.neg.toRat? = some (-q) := by
  obtain ⟨a, c, rfl, hquanta⟩ := toRat?_eq_some_iff.1 h
  refine toRat?_eq_some_iff.2 ⟨!a, c, rfl, ?_⟩
  have hneg : -q * unit = -(signed a (quanta c) : ℚ) := by rw [← hquanta]; ring
  rw [hneg]
  cases a <;> simp [signed]

/-! ## Rounding -/

theorem signed_mul_signed (a b : Bool) (m n : Nat) :
    signed a m * signed b n = signed (a ^^ b) (m * n) := by
  cases a <;> cases b <;> simp [signed]

theorem signed_mul_natCast (a : Bool) (m n : Nat) : signed a m * (n : ℤ) = signed a (m * n) := by
  cases a <;> simp [signed]

theorem signed_natAbs (n : ℤ) : signed (n < 0) n.natAbs = n := by
  by_cases h : n < 0
  · simp only [signed, h, decide_true, if_true]
    omega
  · simp only [signed, h, decide_false, Bool.false_eq_true, if_false]
    omega

/-- A quotient that is the magnitude of a double is rounded to it. -/
theorem ofQuotient_of_eq (a : Bool) (h : num = quanta c * den) (hden : 0 < den) :
    ofQuotient a num den = finite a c := by
  have hcancel := ofQuotient_mul_mul a (quanta c) 1 hden
  rwa [Nat.one_mul, ← h, ofQuotient_quanta] at hcancel

/-- **A representable quotient is rounded to itself.** -/
theorem toRat?_ofQuotient (hden : 0 < den) (hq : Representable q)
    (h : q * unit * den = signed a num) : (ofQuotient a num den).toRat? = some q := by
  obtain ⟨x, hx⟩ := hq
  obtain ⟨b, c, rfl, hquanta⟩ := toRat?_eq_some_iff.1 hx
  have hden' : (den : ℚ) ≠ 0 := Nat.cast_ne_zero.2 hden.ne'
  have hsame : signed b (quanta c * den) = signed a num := by
    rw [← signed_mul_natCast]
    exact_mod_cast hquanta ▸ h
  -- so the two magnitudes are the same
  have hnum : num = quanta c * den := by
    rw [← natAbs_signed a num, ← hsame, natAbs_signed]
  rw [ofQuotient_of_eq a hnum hden]
  refine toRat?_eq_some_iff.2 ⟨a, c, rfl, ?_⟩
  rw [hnum, ← signed_mul_natCast, Int.cast_mul, Int.cast_natCast] at h
  exact mul_right_cancel₀ hden' h

/-! ## Operations -/

theorem toRat?_add (hx : x.toRat? = some p) (hy : y.toRat? = some q)
    (hr : Representable (p + q)) : (add x y).toRat? = some (p + q) := by
  obtain ⟨a, c, rfl, hp⟩ := toRat?_eq_some_iff.1 hx
  obtain ⟨b, d, rfl, hq⟩ := toRat?_eq_some_iff.1 hy
  have hsum : (p + q) * unit = (signed a (quanta c) + signed b (quanta d) : ℤ) := by
    rw [add_mul, hp, hq, Int.cast_add]
  rw [add]
  generalize signed a (quanta c) + signed b (quanta d) = s at hsum
  by_cases hs : s = 0
  · rw [hs, Int.cast_zero] at hsum
    rw [if_pos hs, (mul_eq_zero.1 hsum).resolve_right unit_ne_zero]
    exact toRat?_zero _
  · rw [if_neg hs]
    refine toRat?_ofQuotient Nat.one_pos hr ?_
    rw [signed_natAbs, hsum, Nat.cast_one, mul_one]

theorem toRat?_sub (hx : x.toRat? = some p) (hy : y.toRat? = some q)
    (hr : Representable (p - q)) : (sub x y).toRat? = some (p - q) := by
  rw [sub_eq_add_neg] at hr ⊢
  exact toRat?_add hx (toRat?_neg hy) hr

theorem toRat?_mul (hx : x.toRat? = some p) (hy : y.toRat? = some q)
    (hr : Representable (p * q)) : (mul x y).toRat? = some (p * q) := by
  obtain ⟨a, c, rfl, hp⟩ := toRat?_eq_some_iff.1 hx
  obtain ⟨b, d, rfl, hq⟩ := toRat?_eq_some_iff.1 hy
  refine toRat?_ofQuotient unit_pos hr ?_
  calc p * q * unit * unit = (p * unit) * (q * unit) := by ring
    _ = ((signed a (quanta c) * signed b (quanta d) : ℤ) : ℚ) := by rw [hp, hq, Int.cast_mul]
    _ = _ := by rw [signed_mul_signed]

theorem toRat?_div (hx : x.toRat? = some p) (hy : y.toRat? = some q) (hzero : q ≠ 0)
    (hr : Representable (p / q)) : (div x y).toRat? = some (p / q) := by
  have hdivisor := ne_zero_of_toRat? hy hzero
  obtain ⟨a, c, rfl, hp⟩ := toRat?_eq_some_iff.1 hx
  obtain ⟨b, d, rfl, hq⟩ := toRat?_eq_some_iff.1 hy
  have hd : d.val ≠ 0 := by simpa [isZero] using hdivisor
  have hquanta : quanta d ≠ 0 := fun h => hd (code_of_quanta_eq_zero h)
  rw [div, if_neg hd]
  refine toRat?_ofQuotient (Nat.pos_of_ne_zero hquanta) hr ?_
  -- the sign of the divisor goes to the other side
  have hsign : ((quanta d : ℕ) : ℚ) = signed b 1 * (q * unit) := by
    rw [hq, ← Int.cast_mul, signed_mul_signed, Bool.xor_self, Nat.one_mul]
    rfl
  have hnum : ((signed (a ^^ b) (quanta c * unit) : ℤ) : ℚ) = signed b 1 * (p * unit) * unit := by
    have hmul : signed (a ^^ b) (quanta c * unit) =
        signed b 1 * signed a (quanta c) * (unit : ℤ) := by
      rw [signed_mul_signed, signed_mul_natCast, Nat.one_mul, Bool.xor_comm]
    rw [hmul, hp, Int.cast_mul, Int.cast_mul, Int.cast_natCast]
  rw [hsign, hnum]
  field_simp

end Double

/-! ## Operators -/

/-- The exact result of an operator. -/
def BinaryOp.exact : BinaryOp → ℚ → ℚ → ℚ
  | add, p, q => p + q
  | sub, p, q => p - q
  | mul, p, q => p * q
  | div, p, q => p / q

/-- **An operator is exact where its result is representable**, except that
it does not divide by zero. -/
theorem BinaryOp.exists_apply_of_representable {op : BinaryOp} {x y : Double} {p q : ℚ}
    (hx : x.toRat? = some p) (hy : y.toRat? = some q) (hzero : op = .div → q ≠ 0)
    (hr : Double.Representable (op.exact p q)) :
    ∃ z, op.apply x y = .ok z ∧ z.toRat? = some (op.exact p q) := by
  have hresult : (op.result x y).toRat? = some (op.exact p q) := by
    cases op with
    | add => exact Double.toRat?_add hx hy hr
    | sub => exact Double.toRat?_sub hx hy hr
    | mul => exact Double.toRat?_mul hx hy hr
    | div => exact Double.toRat?_div hx hy (hzero rfl) hr
  have hdivisor : ¬ (op = .div ∧ y.isZero = true) := by
    rintro ⟨hop, hyzero⟩
    rw [Double.ne_zero_of_toRat? hy (hzero hop)] at hyzero
    cases hyzero
  refine ⟨op.result x y, ?_, hresult⟩
  rw [apply_eq, if_neg hdivisor, if_pos (Double.isFinite_of_toRat? hresult)]

/-! ## Decimal numbers -/

/-- The exact value of a decimal number. -/
def Decimal.toRat (d : Decimal) : ℚ :=
  d.digits * (10 : ℚ) ^ d.exponent

theorem Decimal.quotient_spec (d : Decimal) :
    0 < d.quotient.2 ∧ d.toRat * d.quotient.2 = d.quotient.1 := by
  have hpow : ∀ e, Nat.pow 10 e = 10 ^ e := fun _ => rfl
  obtain ⟨digits, e | e⟩ := d
  · refine ⟨Nat.one_pos, ?_⟩
    simp [toRat, quotient]
  · refine ⟨Nat.pow_pos (by decide), ?_⟩
    have hten : (10 : ℚ) ^ (e + 1) ≠ 0 := pow_ne_zero _ (by norm_num)
    simp only [toRat, quotient, hpow, zpow_negSucc, Nat.cast_pow, Nat.cast_ofNat]
    rw [mul_assoc, inv_mul_cancel₀ hten, mul_one]

/-- A decimal number that is representable is rounded to itself. -/
theorem Double.toRat?_ofDecimal {d : Decimal} (h : Representable d.toRat) :
    (ofDecimal false d).toRat? = some d.toRat := by
  obtain ⟨hden, hvalue⟩ := d.quotient_spec
  refine toRat?_ofQuotient hden h ?_
  show d.toRat * unit * d.quotient.2 = ((d.quotient.1 * unit : ℕ) : ℤ)
  rw [mul_right_comm, hvalue]
  push_cast
  rfl

/-! ## Whole numbers -/

namespace Double

variable {x : Double} {q : ℚ} {n : ℤ}

theorem unit_eq : unit = 2 ^ halvings := by
  have hpow : ∀ n, Nat.pow 2 n = 2 ^ n := fun _ => rfl
  unfold unit
  exact hpow halvings

/-- A number of 53 binary digits, doubled up to 2045 times, is the magnitude
of a double. -/
theorem exists_quanta_eq {m s : Nat} (hm : m < 2 * binade) (hs : s ≤ 2045) :
    ∃ c : Fin codeCount, quanta c = m * 2 ^ s := by
  -- fewer digits are doubled until there are 53, or no doubling is left
  induction s generalizing m with
  | zero =>
    by_cases hsmall : m < binade
    · refine ⟨⟨m, ?_⟩, ?_⟩
      · simp only [binade, codeCount] at *
        omega
      · rw [quanta_of_lt hsmall, Nat.pow_zero, Nat.mul_one]
    · refine ⟨⟨m, ?_⟩, ?_⟩
      · simp only [binade, codeCount] at *
        omega
      · have hdiv : m / binade = 1 := by
          simp only [binade] at *
          omega
        have hmod : binade + m % binade = m := by
          simp only [binade] at *
          omega
        rw [quanta, if_neg hsmall, hmod, hdiv]
        exact Nat.shiftLeft_eq m 0
  | succ s ih =>
    by_cases hsmall : m < binade
    · obtain ⟨c, hc⟩ := ih (m := 2 * m) (by omega) (by omega)
      refine ⟨c, ?_⟩
      rw [hc, Nat.pow_succ]
      ring
    · have hcode : (s + 2) * binade + (m - binade) < codeCount := by
        simp only [binade, codeCount] at *
        omega
      refine ⟨⟨(s + 2) * binade + (m - binade), hcode⟩, ?_⟩
      have hlt : ¬ (s + 2) * binade + (m - binade) < binade := by
        simp only [binade] at *
        omega
      have hdiv : ((s + 2) * binade + (m - binade)) / binade = s + 2 := by
        simp only [binade] at *
        omega
      have hmod : binade + ((s + 2) * binade + (m - binade)) % binade = m := by
        simp only [binade] at *
        omega
      rw [quanta, if_neg hlt, hmod, hdiv]
      exact Nat.shiftLeft_eq m (s + 1)

/-- **A whole number up to `2 ^ 53`, halved as often as the number one can
be, is representable.** -/
theorem representable_of_mul_two_pow {k : Nat} (hk : k ≤ halvings) (h : q * 2 ^ k = n)
    (hn : n.natAbs ≤ 2 ^ 53) : Representable q := by
  have hcode : ∃ c : Fin codeCount, quanta c = n.natAbs * 2 ^ (halvings - k) := by
    have hshift : halvings - k + 1 ≤ 2045 := by
      simp only [halvings]
      omega
    by_cases hmax : n.natAbs = 2 ^ 53
    · obtain ⟨c, hc⟩ := exists_quanta_eq (m := binade) (by decide) hshift
      refine ⟨c, ?_⟩
      rw [hc, hmax, show 2 ^ 53 = binade * 2 from rfl, Nat.pow_succ, Nat.mul_assoc,
        Nat.mul_comm 2]
    · have hlt : n.natAbs < 2 * binade := by
        simp only [binade]
        omega
      exact exists_quanta_eq hlt (by omega)
  obtain ⟨c, hc⟩ := hcode
  refine ⟨finite (n < 0) c, toRat?_eq_some_iff.2 ⟨_, c, rfl, ?_⟩⟩
  have hunit : (unit : ℚ) = 2 ^ k * 2 ^ (halvings - k) := by
    rw [unit_eq, ← pow_add, Nat.add_sub_cancel' hk, Nat.cast_pow, Nat.cast_ofNat]
  rw [hc, ← signed_mul_natCast, signed_natAbs, Int.cast_mul, Int.cast_natCast, hunit, ← mul_assoc,
    h, Nat.cast_pow, Nat.cast_ofNat]

theorem representable_of_natAbs_le (h : n.natAbs ≤ 2 ^ 53) : Representable n :=
  representable_of_mul_two_pow (Nat.zero_le _) (by rw [pow_zero, mul_one]) h

/-- A double is a whole number when its exact value is. -/
theorem toInt?_eq_some_iff (h : x.toRat? = some q) : x.toInt? = some n ↔ q = n := by
  obtain ⟨a, c, rfl, hquanta⟩ := toRat?_eq_some_iff.1 h
  have hunit : (unit : ℤ) ≠ 0 := by exact_mod_cast unit_pos.ne'
  simp only [toInt?, signedQuanta?]
  generalize signed a (quanta c) = s at hquanta
  constructor
  · intro hn
    by_cases hmod : s % unit = 0
    · rw [if_pos hmod, Option.some.injEq] at hn
      have hs : s = n * unit := by rw [← hn, Int.ediv_mul_cancel_of_emod_eq_zero hmod]
      rw [hs, Int.cast_mul, Int.cast_natCast] at hquanta
      exact mul_right_cancel₀ unit_ne_zero hquanta
    · rw [if_neg hmod] at hn
      cases hn
  · rintro rfl
    have hs : s = n * unit := by exact_mod_cast hquanta.symm
    rw [hs, Int.mul_emod_left, if_pos rfl, Int.mul_ediv_cancel _ hunit]

end Double

namespace Number

/-- The result that an exact value `q` has: a whole number if `q` is one of
64 bits with a sign, else the double that is `q`. -/
structure IsExactly (v : Number) (q : ℚ) : Prop where
  whole : ∀ n : ℤ, q = n → -2 ^ 63 ≤ n → n < 2 ^ 63 → ∃ i : Int64, v = .integer i ∧ i.toInt = n
  other : (∀ n : ℤ, q = n → ¬ (-2 ^ 63 ≤ n ∧ n < 2 ^ 63)) →
    ∃ x : Double, v = .real x ∧ x.toRat? = some q

/-- **What a double becomes** is exactly what it is. -/
theorem isExactly_ofDouble {x : Double} {q : ℚ} (h : x.toRat? = some q) :
    (ofDouble x).IsExactly q := by
  constructor
  · intro n hn hlow hhigh
    have hfits : fits n = true := by
      simp only [fits, Bool.and_eq_true, decide_eq_true_eq]
      omega
    refine ⟨Int64.ofInt n, ?_, toInt_ofInt_of_fits hfits⟩
    exact ofDouble_eq_integer_iff.2 ⟨n, (Double.toInt?_eq_some_iff h).2 hn, hfits, rfl⟩
  · intro hnone
    refine ⟨x, ofDouble_eq_real_iff.2 ⟨rfl, fun n hn => Bool.eq_false_iff.2 fun hfits => ?_⟩, h⟩
    simp only [fits, Bool.and_eq_true, decide_eq_true_eq] at hfits
    exact hnone n ((Double.toInt?_eq_some_iff h).1 hn) (by omega)

end Number

end Abacus
