import Abacus.Proofs.ExactArithmetic
import Mathlib.Data.Rat.Floor

/-!
# Narrowing

A double becomes a whole number of 64 bits without loss. The exact values
of all words of 64 bits are read off their three fields, so that what is
narrowed, and what is not, can be told from the word; the double nearest to
the whole number is then the one it was made of, with a positive zero for
the negative one.
-/

namespace Abacus

namespace Double

/-! ## The fields of a word -/

/-- The exact value of a word by its fields: one bit of sign, eleven bits
of exponent, 52 bits of fraction. Above exponent zero a leading one is
added to the fraction; the last exponent is that of no number. -/
def wordValue? (word : UInt64) : Option ℚ :=
  let sign : ℚ := if 2 ^ 63 ≤ word.toNat then -1 else 1
  let exponent : ℕ := word.toNat / 2 ^ 52 % 2 ^ 11
  let fraction : ℕ := word.toNat % 2 ^ 52
  if exponent = 2047 then none
  else if exponent = 0 then some (sign * (fraction * 2 ^ (-1074 : ℤ)))
  else some (sign * ((2 ^ 52 + fraction : ℕ) * 2 ^ (exponent - 1075 : ℤ)))

theorem unit_inv_eq : (unit : ℚ)⁻¹ = 2 ^ (-1074 : ℤ) := by
  rw [unit_eq, Nat.cast_pow, Nat.cast_ofNat, zpow_neg, ← zpow_natCast]
  rfl

theorem quanta_div_unit_of_lt {c : Nat} (h : c < binade) :
    (quanta c : ℚ) / unit = c * 2 ^ (-1074 : ℤ) := by
  rw [quanta_of_lt h, div_eq_mul_inv, unit_inv_eq]

theorem quanta_div_unit_of_ge {c : Nat} (h : binade ≤ c) :
    (quanta c : ℚ) / unit = (binade + c % binade : ℕ) * 2 ^ ((c / binade : ℕ) - 1075 : ℤ) := by
  have hquanta : quanta c = (binade + c % binade) * 2 ^ (c / binade - 1) := by
    rw [quanta, if_neg (Nat.not_lt.2 h)]
    exact Nat.shiftLeft_eq _ _
  have hone : 1 ≤ c / binade := (Nat.one_le_div_iff (by decide)).2 h
  have hexponent : ((c / binade : ℕ) - 1075 : ℤ) = (c / binade - 1 : ℕ) + (-1074) := by
    rw [Nat.cast_sub hone]
    ring
  rw [hquanta, div_eq_mul_inv, unit_inv_eq, hexponent, zpow_add₀ (by norm_num), zpow_natCast,
    Nat.cast_mul, Nat.cast_pow, Nat.cast_ofNat, mul_assoc]

theorem signed_div (a : Bool) (m : Nat) (q : ℚ) :
    (signed a m : ℚ) / q = (if a then -1 else 1) * (m / q) := by
  cases a
  · simp [signed]
  · simp only [signed, if_true, Int.cast_neg, Int.cast_natCast]
    ring

/-- **The value of a word is what its fields say.** -/
theorem toRat?_ofBits (word : UInt64) : (ofBits word.toNat).toRat? = wordValue? word := by
  have hword : word.toNat < 2 ^ 64 := word.toNat_lt
  -- the code of the word is its exponent and its fraction in one number
  have hexponent : word.toNat % signBit / binade = word.toNat / 2 ^ 52 % 2 ^ 11 := by
    simp only [signBit, binade]
    omega
  have hfraction : word.toNat % signBit % binade = word.toNat % 2 ^ 52 := by
    simp only [signBit, binade]
    omega
  have hsign : (if decide (signBit ≤ word.toNat) then (-1 : ℚ) else 1) =
      if 2 ^ 63 ≤ word.toNat then -1 else 1 := by
    simp only [decide_eq_true_eq]
    rfl
  simp only [wordValue?]
  rw [← hexponent, ← hfraction, ← hsign]
  generalize hcode : word.toNat % signBit = c
  by_cases hfinite : c < codeCount
  · have hlast : c / binade ≠ 2047 := by
      simp only [codeCount, binade] at *
      omega
    rw [if_neg hlast, ofBits]
    simp only [hcode, dif_pos hfinite]
    rw [toRat?_finite, signed_div]
    by_cases hsmall : c < binade
    · rw [if_pos (Nat.div_eq_of_lt hsmall), quanta_div_unit_of_lt hsmall, Nat.mod_eq_of_lt hsmall]
    · have hnonzero : c / binade ≠ 0 := fun h =>
        hsmall ((Nat.div_eq_zero_iff_lt (by decide)).1 h)
      rw [if_neg hnonzero, quanta_div_unit_of_ge (Nat.not_lt.1 hsmall)]
      rfl
  · have hlast : c / binade = 2047 := by
      have hc : c < signBit := hcode ▸ Nat.mod_lt _ (by decide)
      simp only [codeCount, binade, signBit] at *
      omega
    rw [if_pos hlast, ofBits]
    simp only [hcode, dif_neg hfinite]
    split <;> rfl

/-- A double is numerically equal to itself unless it is no number. -/
theorem numEq_self_iff {x : Double} : x.numEq x = true ↔ x ≠ nan := by
  cases x <;> simp [numEq]

/-- A word is the word of its double, unless that is no number. -/
theorem toBits_ofBits {word : Nat} (hword : word < 2 ^ 64) (h : ofBits word ≠ nan) :
    (ofBits word).toBits = word := by
  have hsplit : (if decide (signBit ≤ word) then signBit else 0) + word % signBit = word := by
    by_cases hle : signBit ≤ word
    · rw [if_pos (decide_eq_true hle)]
      simp only [signBit] at *
      omega
    · rw [if_neg (by simpa using hle), Nat.mod_eq_of_lt (Nat.not_le.1 hle), Nat.zero_add]
  revert h
  simp only [ofBits]
  split
  · exact fun _ => hsplit
  · split
    · rename_i hcode
      intro _
      rw [toBits, ← hcode]
      exact hsplit
    · exact fun h => absurd rfl h

end Double

namespace Number

open Double

variable {x y : Double} {n : ℤ} {i : Int64}

/-! ## What is narrowed -/

theorem fits_iff : fits n = true ↔ -2 ^ 63 ≤ n ∧ n < 2 ^ 63 := by
  simp only [fits, Bool.and_eq_true, decide_eq_true_eq]
  omega

/-- A double is a whole number when its exact value is. -/
theorem toInt?_eq_some_iff_toRat? : x.toInt? = some n ↔ x.toRat? = some (n : ℚ) := by
  constructor
  · intro h
    obtain ⟨a, c, rfl, -⟩ := toInt?_eq_some h
    exact (toRat?_finite a c).trans
      (congrArg some ((toInt?_eq_some_iff (toRat?_finite a c)).1 h))
  · exact fun h => (toInt?_eq_some_iff h).2 rfl

/-- **A double becomes a whole number** exactly when its exact value is one
of 64 bits, and it becomes that one. -/
theorem ofDouble_eq_integer_iff_toRat? :
    ofDouble x = integer i ↔
      ∃ n : ℤ, x.toRat? = some (n : ℚ) ∧ -2 ^ 63 ≤ n ∧ n < 2 ^ 63 ∧ i.toInt = n := by
  rw [ofDouble_eq_integer_iff]
  constructor
  · rintro ⟨n, hn, hfits, rfl⟩
    exact ⟨n, toInt?_eq_some_iff_toRat?.1 hn, (fits_iff.1 hfits).1, (fits_iff.1 hfits).2,
      toInt_ofInt_of_fits hfits⟩
  · rintro ⟨n, hn, hlow, hhigh, hi⟩
    refine ⟨n, toInt?_eq_some_iff_toRat?.2 hn, fits_iff.2 ⟨hlow, hhigh⟩, ?_⟩
    rw [← hi, Int64.ofInt_toInt]

/-- **Every other double stays** as it is. -/
theorem ofDouble_eq_real_iff_toRat? :
    ofDouble x = real y ↔
      y = x ∧ ¬ ∃ n : ℤ, x.toRat? = some (n : ℚ) ∧ -2 ^ 63 ≤ n ∧ n < 2 ^ 63 := by
  rw [ofDouble_eq_real_iff, eq_comm]
  refine and_congr_right fun _ => ⟨?_, ?_⟩
  · rintro h ⟨n, hn, hbounds⟩
    have hfits := h n (toInt?_eq_some_iff_toRat?.2 hn)
    rw [fits_iff.2 hbounds] at hfits
    cases hfits
  · intro h n hn
    refine Bool.eq_false_iff.2 fun hfits => h ⟨n, toInt?_eq_some_iff_toRat?.1 hn, fits_iff.1 hfits⟩

/-- **The test and the cast**: a double becomes a whole number when it is
finite, nothing stands after its point, and it lies between the two bounds,
the upper one left out; it becomes its floor. -/
theorem ofDouble_eq_floor (x : Double) :
    ofDouble x =
      match x.toRat? with
      | some q =>
        if Int.fract q = 0 ∧ -2 ^ 63 ≤ q ∧ q < 2 ^ 63 then integer (Int64.ofInt ⌊q⌋) else real x
      | none => real x := by
  cases hx : x.toRat? with
  | none =>
    refine ofDouble_eq_real_iff_toRat?.2 ⟨rfl, ?_⟩
    rintro ⟨n, hn, -⟩
    rw [hx] at hn
    cases hn
  | some q =>
    dsimp only
    split
    · rename_i htest
      obtain ⟨hfract, hlow, hhigh⟩ := htest
      have hfloor : q = (⌊q⌋ : ℤ) := sub_eq_zero.1 hfract
      have hbounds : -2 ^ 63 ≤ ⌊q⌋ ∧ ⌊q⌋ < 2 ^ 63 :=
        ⟨Int.le_floor.2 (by exact_mod_cast hlow), Int.floor_lt.2 (by exact_mod_cast hhigh)⟩
      exact ofDouble_eq_integer_iff_toRat?.2 ⟨⌊q⌋, hx.trans (congrArg some hfloor), hbounds.1,
        hbounds.2, toInt_ofInt_of_fits (fits_iff.2 hbounds)⟩
    · rename_i htest
      refine ofDouble_eq_real_iff_toRat?.2 ⟨rfl, ?_⟩
      rintro ⟨n, hn, hlow, hhigh⟩
      obtain rfl : q = n := Option.some.inj (hx.symm.trans hn)
      exact htest ⟨Int.fract_intCast n, by exact_mod_cast hlow, by exact_mod_cast hhigh⟩

/-- The bounds are doubles themselves. -/
example : (ofInt (-2 ^ 63)).toInt? = some (-2 ^ 63) ∧ (ofInt (2 ^ 63)).toInt? = some (2 ^ 63) := by
  decide +kernel

/-! ## What comes back -/

theorem toInt_fits (i : Int64) : fits i.toInt = true :=
  fits_iff.2 ⟨i.le_toInt, i.toInt_lt⟩

/-- A whole number that is a double is its own nearest double, the zeros
apart. -/
theorem ofInt_of_toInt? (h : x.toInt? = some n) :
    ofInt n = if x.isZero then .zero false else x := by
  obtain ⟨negative, c, rfl, hquanta, hsign⟩ := toInt?_eq_some h
  rw [ofInt, ← hquanta, ofQuotient_quanta]
  by_cases hc : c.val = 0
  · have hn : n = 0 := by
      have hmul : n.natAbs * unit = 0 := by
        rw [← hquanta, hc]
        exact quanta_of_lt (by decide)
      exact Int.natAbs_eq_zero.1 ((Nat.mul_eq_zero.1 hmul).resolve_right unit_pos.ne')
    obtain rfl : c = ⟨0, by decide⟩ := Fin.ext hc
    rw [hn]
    rfl
  · rw [if_neg (by simpa [isZero] using hc), hsign.resolve_right hc]

/-- **Narrowing loses only the sign of a zero.** -/
theorem toDouble_ofDouble (x : Double) :
    (ofDouble x).toDouble = if x = .zero true then .zero false else x := by
  have hzero : x.isZero = true → (x = .zero true ∨ x = .zero false) := by
    intro h
    cases x with
    | finite negative c =>
      obtain rfl : c = ⟨0, by decide⟩ := Fin.ext (beq_iff_eq.1 h)
      cases negative
      · exact .inr rfl
      · exact .inl rfl
    | _ => cases h
  cases hx : ofDouble x with
  | integer i =>
    obtain ⟨n, hn, hfits, rfl⟩ := ofDouble_eq_integer_iff.1 hx
    rw [toDouble, toInt_ofInt_of_fits hfits, ofInt_of_toInt? hn]
    by_cases h : x.isZero = true
    · rcases hzero h with rfl | rfl <;> rfl
    · rw [if_neg h, if_neg]
      rintro rfl
      exact h rfl
  | real y =>
    obtain ⟨rfl, hwhole⟩ := ofDouble_eq_real_iff.1 hx
    rw [toDouble, if_neg]
    -- a zero is a whole number that fits
    rintro rfl
    have hfits := hwhole 0 (toInt?_of_isZero rfl)
    cases hfits

theorem numEq_toDouble_ofDouble : (ofDouble x).toDouble.numEq x = true ↔ x ≠ .nan := by
  rw [toDouble_ofDouble]
  split
  · rename_i h
    subst h
    decide
  · exact numEq_self_iff

/-- **Narrowing is stable.** -/
theorem ofDouble_toDouble_ofDouble (x : Double) :
    ofDouble (ofDouble x).toDouble = ofDouble x := by
  rw [toDouble_ofDouble]
  split
  · rename_i h
    rw [h, ofDouble_of_isZero rfl, ofDouble_of_isZero rfl]
  · rfl

/-- **A whole number comes back** from its nearest double exactly when it is
a double itself. -/
theorem ofDouble_ofInt_eq_integer_iff :
    ofDouble (.ofInt i.toInt) = integer i ↔ Representable (i.toInt : ℚ) := by
  constructor
  · intro h
    obtain ⟨n, hn, -, -, rfl⟩ := ofDouble_eq_integer_iff_toRat?.1 h
    exact ⟨_, hn⟩
  · intro h
    have hexact : (ofInt i.toInt).toRat? = some (i.toInt : ℚ) := by
      refine toRat?_ofQuotient Nat.one_pos h ?_
      rw [Nat.cast_one, mul_one, ← signed_mul_natCast, signed_natAbs, Int.cast_mul,
        Int.cast_natCast]
    obtain ⟨hlow, hhigh⟩ := fits_iff.1 (toInt_fits i)
    exact ofDouble_eq_integer_iff_toRat?.2 ⟨_, hexact, hlow, hhigh, rfl⟩

/-- The largest whole number of 64 bits is no double. The one nearest to it
is too large by one and stays as it is. -/
example : ofDouble (.ofInt Int64.maxValue.toInt) = .real (.ofInt (2 ^ 63)) := by
  decide +kernel

/-- The word of what comes back. -/
theorem toBits_toDouble_ofDouble {word : UInt64} (h : ofBits word.toNat ≠ .nan) :
    (ofDouble (ofBits word.toNat)).toDouble.toBits =
      if word.toNat = 2 ^ 63 then 0 else word.toNat := by
  have hword := toBits_ofBits word.toNat_lt h
  rw [toDouble_ofDouble]
  by_cases hzero : ofBits word.toNat = .zero true
  · have hnumber : word.toNat = 2 ^ 63 := by
      rw [← hword, hzero]
      rfl
    rw [if_pos hzero, if_pos hnumber]
    rfl
  · rw [if_neg hzero, if_neg, hword]
    intro heq
    rw [heq] at hzero
    exact hzero rfl

/-! ## Together -/

/-- **Narrowing loses nothing and is stable.** A double becomes a whole
number exactly when its exact value is one of 64 bits with a sign, and then
that one; any other stays as it is. Back as a double the result is
numerically equal to what it was made of, unless that is no number, and is
narrowed to itself. All this is so of every word, whose value is told by
its fields: the word is kept, but for that of the negative zero. And a
whole number of 64 bits is what its nearest double becomes exactly when it
is itself a double. -/
theorem ofDouble_lossless :
    (∀ x : Double,
      (∀ i, ofDouble x = integer i ↔
        ∃ n : ℤ, x.toRat? = some (n : ℚ) ∧ -2 ^ 63 ≤ n ∧ n < 2 ^ 63 ∧ i.toInt = n) ∧
      (∀ y, ofDouble x = real y ↔
        y = x ∧ ¬ ∃ n : ℤ, x.toRat? = some (n : ℚ) ∧ -2 ^ 63 ≤ n ∧ n < 2 ^ 63) ∧
      ((ofDouble x).toDouble.numEq x = true ↔ x ≠ .nan) ∧
      ofDouble (ofDouble x).toDouble = ofDouble x) ∧
    (∀ word : UInt64, (ofBits word.toNat).toRat? = wordValue? word ∧
      (ofBits word.toNat ≠ .nan →
        (ofDouble (ofBits word.toNat)).toDouble.toBits =
          if word.toNat = 2 ^ 63 then 0 else word.toNat)) ∧
    ∀ i : Int64, ofDouble (.ofInt i.toInt) = integer i ↔ Representable (i.toInt : ℚ) :=
  ⟨fun x => ⟨fun _ => ofDouble_eq_integer_iff_toRat?, fun _ => ofDouble_eq_real_iff_toRat?,
    numEq_toDouble_ofDouble, ofDouble_toDouble_ofDouble x⟩,
    fun word => ⟨toRat?_ofBits word, toBits_toDouble_ofDouble⟩,
    fun _ => ofDouble_ofInt_eq_integer_iff⟩

/-- The word of minus two to the power 63, the least whole number of 64
bits, keeps its word. -/
theorem ofDouble_lossless_least :
    let word : UInt64 := 0xC3E0000000000000
    ofBits word.toNat ≠ .nan ∧ ofDouble (ofBits word.toNat) = integer Int64.minValue ∧
      (ofDouble (ofBits word.toNat)).toDouble.toBits = 0xC3E0000000000000 := by
  intro word
  have hword : ofBits word.toNat ≠ .nan := by decide +kernel
  refine ⟨hword, ?_, ?_⟩
  · decide +kernel
  · exact (ofDouble_lossless.2.1 word).2 hword

end Number

end Abacus
