import Abacus.Proofs.ReadBack
import Abacus.Proofs.Tiers

/-!
# ZeroSigns

The sign of a zero does not show in a result. Operands that are equal as
numbers, though one may be the negative zero and the other not, have results
that are equal as numbers; and numbers that are equal become the same whole
number or stay the same double.
-/

namespace Abacus

namespace Double

variable {a b : Bool} {c : Fin codeCount} {x y z : Double}

/-! ## Equal numbers -/

theorem numEq_finite (h : a = b ∨ c.val = 0) : (finite a c).numEq (finite b c) = true := by
  simpa [numEq] using h

/-- What is equal to a finite double differs from it at most in the sign of
a zero. -/
theorem exists_of_numEq (h : x.numEq y = true) (hx : x.isFinite = true) :
    ∃ a b c, x = finite a c ∧ y = finite b c ∧ (a = b ∨ c.val = 0) := by
  cases x with
  | finite a c => cases y with
    | finite b d =>
      simp only [numEq, Bool.and_eq_true, Bool.or_eq_true, beq_iff_eq] at h
      obtain ⟨rfl, hsign⟩ := h
      exact ⟨a, b, c, rfl, rfl, hsign⟩
    | _ => cases h
  | _ => cases hx

theorem numEq_trans (hx : x.isFinite = true) (hxy : x.numEq y = true) (hyz : y.numEq z = true) :
    x.numEq z = true := by
  obtain ⟨a, b, c, rfl, rfl, hsign⟩ := exists_of_numEq hxy hx
  obtain ⟨b', d, c', heq, rfl, hsign'⟩ := exists_of_numEq hyz rfl
  cases heq
  refine numEq_finite ?_
  rcases hsign with rfl | hzero
  · exact hsign'
  · exact .inr hzero

theorem numEq_symm (hx : x.isFinite = true) (h : x.numEq y = true) : y.numEq x = true := by
  obtain ⟨a, b, c, rfl, rfl, hsign⟩ := exists_of_numEq h hx
  exact numEq_finite (hsign.imp_left Eq.symm)

theorem isFinite_of_numEq (hx : x.isFinite = true) (h : x.numEq y = true) :
    y.isFinite = true := by
  obtain ⟨a, b, c, rfl, rfl, -⟩ := exists_of_numEq h hx
  rfl

theorem isZero_of_numEq (hx : x.isFinite = true) (h : x.numEq y = true) :
    y.isZero = x.isZero := by
  obtain ⟨a, b, c, rfl, rfl, -⟩ := exists_of_numEq h hx
  rfl

theorem neg_numEq (hx : x.isFinite = true) (h : x.numEq y = true) :
    x.neg.numEq y.neg = true := by
  obtain ⟨a, b, c, rfl, rfl, hsign⟩ := exists_of_numEq h hx
  exact numEq_finite (hsign.imp_left (congrArg Bool.not))

theorem negIf_numEq (hx : x.isFinite = true) (h : x.numEq y = true) (negative : Bool) :
    (x.negIf negative).numEq (y.negIf negative) = true := by
  cases negative
  · exact h
  · exact neg_numEq hx h

theorem negIf_negIf (x : Double) (a b : Bool) : (x.negIf a).negIf b = x.negIf (a ^^ b) := by
  cases a <;> cases b <;> simp

/-! ## Arithmetic -/

theorem quanta_of_eq_zero (h : c.val = 0) : quanta c = 0 := by
  rw [h]
  exact quanta_of_lt (by decide)

theorem signed_quanta_eq (h : a = b ∨ c.val = 0) : signed a (quanta c) = signed b (quanta c) := by
  rcases h with rfl | hzero
  · rfl
  · rw [quanta_of_eq_zero hzero]
    cases a <;> cases b <;> rfl

theorem ofQuotient_zero (negative : Bool) (den : Nat) :
    ofQuotient negative 0 den = zero negative := by
  have hspacing : spacing (0 / den) = 0 := by
    rw [Nat.zero_div]
    exact spacing_of_lt (by decide)
  have hround : ∀ d, roundQuotient 0 d = 0 := by
    intro d
    simp [roundQuotient]
  simp only [ofQuotient, hspacing, hround]
  rfl

/-- The sign of a rounded quotient shows unless the quotient is zero. -/
theorem ofQuotient_numEq {num den : Nat} (h : a = b ∨ num = 0)
    (hfinite : (ofQuotient a num den).isFinite = true) :
    (ofQuotient a num den).numEq (ofQuotient b num den) = true := by
  rcases h with rfl | rfl
  · exact numEq_refl hfinite
  · rw [ofQuotient_zero, ofQuotient_zero]
    exact numEq_finite (.inr rfl)

variable {x' y' : Double}

theorem add_numEq (hx : x.isFinite = true) (hy : y.isFinite = true) (hxx' : x.numEq x' = true)
    (hyy' : y.numEq y' = true) (hfinite : (add x y).isFinite = true) :
    (add x y).numEq (add x' y') = true := by
  obtain ⟨a, a', c, rfl, rfl, hsign⟩ := exists_of_numEq hxx' hx
  obtain ⟨b, b', d, rfl, rfl, hsign'⟩ := exists_of_numEq hyy' hy
  simp only [add, ← signed_quanta_eq hsign, ← signed_quanta_eq hsign'] at hfinite ⊢
  split
  · exact numEq_finite (.inr rfl)
  · rw [if_neg ‹_›] at hfinite
    exact numEq_refl hfinite

theorem mul_numEq (hx : x.isFinite = true) (hy : y.isFinite = true) (hxx' : x.numEq x' = true)
    (hyy' : y.numEq y' = true) (hfinite : (mul x y).isFinite = true) :
    (mul x y).numEq (mul x' y') = true := by
  obtain ⟨a, a', c, rfl, rfl, hsign⟩ := exists_of_numEq hxx' hx
  obtain ⟨b, b', d, rfl, rfl, hsign'⟩ := exists_of_numEq hyy' hy
  refine ofQuotient_numEq ?_ hfinite
  rcases hsign with rfl | hzero
  · rcases hsign' with rfl | hzero
    · exact .inl rfl
    · rw [quanta_of_eq_zero hzero, Nat.mul_zero]
      exact .inr rfl
  · rw [quanta_of_eq_zero hzero, Nat.zero_mul]
    exact .inr rfl

theorem div_numEq (hx : x.isFinite = true) (hy : y.isFinite = true) (hxx' : x.numEq x' = true)
    (hyy' : y.numEq y' = true) (hzero : y.isZero = false)
    (hfinite : (div x y).isFinite = true) : (div x y).numEq (div x' y') = true := by
  obtain ⟨a, a', c, rfl, rfl, hsign⟩ := exists_of_numEq hxx' hx
  obtain ⟨b, b', d, rfl, rfl, hsign'⟩ := exists_of_numEq hyy' hy
  -- the divisor is not zero, so its sign is the same
  have hne : d.val ≠ 0 := by simpa [isZero] using hzero
  obtain rfl := hsign'.resolve_right hne
  rw [div, if_neg hne] at hfinite ⊢
  rw [div, if_neg hne]
  refine ofQuotient_numEq ?_ hfinite
  rcases hsign with rfl | hzero
  · exact .inl rfl
  · rw [quanta_of_eq_zero hzero, Nat.zero_mul]
    exact .inr rfl

end Double

/-- **Equal operands have equal results.** -/
theorem BinaryOp.applied?_numEq {op : BinaryOp} {x x' y y' z : Double} (hx : x.isFinite = true)
    (hy : y.isFinite = true) (hxx' : x.numEq x' = true) (hyy' : y.numEq y' = true)
    (h : op.applied? x y = some z) :
    ∃ z', op.applied? x' y' = some z' ∧ z.numEq z' = true := by
  have hzero := Double.isZero_of_numEq hy hyy'
  rw [applied?, apply_eq] at h
  rw [applied?, apply_eq, hzero]
  by_cases hdivisor : op = .div ∧ y.isZero = true
  · rw [if_pos hdivisor] at h
    cases h
  · rw [if_neg hdivisor] at h ⊢
    by_cases hfinite : (op.result x y).isFinite = true
    · rw [if_pos hfinite] at h
      cases h
      have hresult : (op.result x y).numEq (op.result x' y') = true := by
        cases op with
        | add => exact Double.add_numEq hx hy hxx' hyy' hfinite
        | sub =>
          have hneg : y.neg.isFinite = true := by rw [Double.isFinite_neg, hy]
          exact Double.add_numEq hx hneg hxx' (Double.neg_numEq hy hyy') hfinite
        | mul => exact Double.mul_numEq hx hy hxx' hyy' hfinite
        | div => exact Double.div_numEq hx hy hxx' hyy' (by simpa using hdivisor) hfinite
      rw [if_pos (Double.isFinite_of_numEq hfinite hresult)]
      exact ⟨_, rfl, hresult⟩
    · rw [if_neg hfinite] at h
      cases h

/-- **Equal numbers become the same result.** -/
theorem Number.ofDouble_eq_of_numEq {x y : Double} (hx : x.isFinite = true)
    (h : x.numEq y = true) : ofDouble x = ofDouble y := by
  obtain ⟨a, b, c, rfl, rfl, rfl | hzero⟩ := Double.exists_of_numEq h hx
  · rfl
  · have hzero' : ∀ negative, (Double.finite negative c).isZero = true :=
      fun _ => beq_iff_eq.2 hzero
    rw [ofDouble_of_isZero (hzero' a), ofDouble_of_isZero (hzero' b)]

end Abacus
