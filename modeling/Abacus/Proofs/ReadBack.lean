import Abacus.Number
import Abacus.Proofs.Numerals
import Abacus.Proofs.Outcome

/-!
# ReadBack

The text of a result, read again. It is a numeral, after a `-` if the
result is below zero, and the numeral reads as the double that the result
was made of; only the sign of a zero is lost.
-/

namespace Abacus

/-! ## Digits -/

namespace Numeral

variable {digits frac : List Char}

theorem natOf_eq_ofDigitChars (digits : List Char) :
    natOf digits = Nat.ofDigitChars 10 digits 0 := rfl

theorem natOf_digitsOf (n : Nat) : natOf (Decimal.digitsOf n) = n :=
  Nat.ofDigitChars_ten_toDigits

theorem allDigits_digitsOf (n : Nat) : AllDigits (Decimal.digitsOf n) :=
  ⟨Nat.toDigits_ne_nil, fun _ hc => Nat.isDigit_of_mem_toDigits (by decide) (by decide) hc⟩

theorem natOf_append_zeros (digits : List Char) (e : Nat) :
    natOf (digits ++ List.replicate e '0') = natOf digits * Nat.pow 10 e := by
  rw [natOf_eq_ofDigitChars, Nat.ofDigitChars_append, Nat.ofDigitChars_replicate_zero,
    ← natOf_eq_ofDigitChars, Nat.mul_comm]
  rfl

theorem natOf_zeros_append (e : Nat) (digits : List Char) :
    natOf (List.replicate e '0' ++ digits) = natOf digits := by
  rw [natOf_eq_ofDigitChars, Nat.ofDigitChars_append, Nat.ofDigitChars_replicate_zero,
    Nat.mul_zero, natOf_eq_ofDigitChars]

theorem AllDigits.append_zeros (h : AllDigits digits) (e : Nat) :
    AllDigits (digits ++ List.replicate e '0') := by
  refine ⟨by simp [h.1], fun c hc => ?_⟩
  rcases List.mem_append.1 hc with hc | hc
  · exact h.2 c hc
  · rw [List.eq_of_mem_replicate hc]
    rfl

theorem AllDigits.zeros_append (h : AllDigits digits) (e : Nat) :
    AllDigits (List.replicate e '0' ++ digits) := by
  refine ⟨by simp [h.1], fun c hc => ?_⟩
  rcases List.mem_append.1 hc with hc | hc
  · rw [List.eq_of_mem_replicate hc]
    rfl
  · exact h.2 c hc

theorem decimal_of_digits (h : AllDigits digits) : decimal digits = ⟨natOf digits, 0⟩ := by
  rw [decimal, parts_of_digits h]

theorem decimal_append_point (h : AllDigits digits) (frac : List Char) :
    decimal (digits ++ '.' :: frac) = ⟨natOf (digits ++ frac), -(frac.length : Int)⟩ := by
  rw [decimal, parts_append_point h]

end Numeral

/-! ## Decimal numbers -/

open Numeral in
/-- A decimal number with places after the point is spelled by its text. -/
theorem Decimal.decimal_plain_of_negSucc (digits e : Nat) :
    WellFormed (plain ⟨digits, .negSucc e⟩) ∧
      decimal (plain ⟨digits, .negSucc e⟩) = ⟨digits, .negSucc e⟩ := by
  have hdigits := allDigits_digitsOf digits
  have hvalue := natOf_digitsOf digits
  generalize hds : digitsOf digits = ds at hdigits hvalue
  by_cases hplaces : e + 1 < ds.length
  · -- the point stands among the digits
    have hplain : plain ⟨digits, .negSucc e⟩ =
        ds.take (ds.length - (e + 1)) ++ '.' :: ds.drop (ds.length - (e + 1)) := by
      simp only [plain, hds]
      exact if_pos hplaces
    have hwhole : AllDigits (ds.take (ds.length - (e + 1))) :=
      ⟨List.ne_nil_of_length_pos (by rw [List.length_take]; omega),
        fun c hc => hdigits.2 c (List.mem_of_mem_take hc)⟩
    have hlength : (ds.drop (ds.length - (e + 1))).length = e + 1 := by
      rw [List.length_drop]
      omega
    have hfrac : AllDigits (ds.drop (ds.length - (e + 1))) :=
      ⟨List.ne_nil_of_length_pos (by omega), fun c hc => hdigits.2 c (List.mem_of_mem_drop hc)⟩
    rw [hplain, decimal_append_point hwhole, List.take_append_drop, hvalue, hlength]
    exact ⟨.fraction hwhole hfrac, rfl⟩
  · -- zeros fill the places up to the digits
    have hplain : plain ⟨digits, .negSucc e⟩ =
        ['0'] ++ '.' :: (List.replicate (e + 1 - ds.length) '0' ++ ds) := by
      simp only [plain, hds]
      exact if_neg hplaces
    have hwhole : AllDigits ['0'] := ⟨by simp, by simp⟩
    have hlength : (List.replicate (e + 1 - ds.length) '0' ++ ds).length = e + 1 := by
      rw [List.length_append, List.length_replicate]
      omega
    have hdigitsOf : natOf (['0'] ++ (List.replicate (e + 1 - ds.length) '0' ++ ds)) = digits := by
      have hzeros := natOf_zeros_append (e + 1 - ds.length + 1) ds
      rw [List.replicate_succ] at hzeros
      exact hzeros.trans hvalue
    rw [hplain, decimal_append_point hwhole, hdigitsOf, hlength]
    exact ⟨.fraction hwhole (hdigits.zeros_append _), rfl⟩

/-- A whole number reads as the double nearest to it. -/
theorem Numeral.value_of_digits {digits : List Char} (h : AllDigits digits) :
    value digits = .ofQuotient false (natOf digits * Double.unit) 1 := by
  have hone : natOf digits * Nat.pow 10 0 = natOf digits := Nat.mul_one _
  rw [value, decimal_of_digits h, Double.ofDecimal]
  simp only [Decimal.quotient, hone]

/-- **A decimal number written without an exponent** is a numeral, and reads
as the double nearest to it. -/
theorem Numeral.value_plain (d : Decimal) :
    WellFormed d.plain ∧ value d.plain = .ofDecimal false d := by
  obtain ⟨digits, e | e⟩ := d
  · -- without places after the point the exponent is written out in zeros
    have hdigits := (allDigits_digitsOf digits).append_zeros e
    have hplain : Decimal.plain ⟨digits, .ofNat e⟩ =
      Decimal.digitsOf digits ++ List.replicate e '0' := rfl
    rw [hplain, value_of_digits hdigits, natOf_append_zeros, natOf_digitsOf]
    exact ⟨.whole hdigits, rfl⟩
  · obtain ⟨hformed, hdecimal⟩ := Decimal.decimal_plain_of_negSucc digits e
    exact ⟨hformed, congrArg (Double.ofDecimal false) hdecimal⟩

/-! ## Results -/

namespace Double

theorem numEq_refl {x : Double} (h : x.isFinite = true) : x.numEq x = true := by
  cases x with
  | finite => simp [numEq]
  | _ => cases h

theorem code_of_quanta_eq_zero {c : Nat} (h : quanta c = 0) : c = 0 := by
  unfold quanta at h
  split at h
  · exact h
  · -- past the first binade no magnitude is zero
    rw [show ∀ m s, Nat.shiftLeft m s = m * 2 ^ s from Nat.shiftLeft_eq] at h
    have hpos : 0 < (binade + c % binade) * 2 ^ (c / binade - 1) :=
      Nat.mul_pos (Nat.add_pos_left (by decide) _) (Nat.two_pow_pos _)
    omega

theorem unit_pos : 0 < unit := by
  have hpow : ∀ n, 0 < Nat.pow 2 n := Nat.two_pow_pos
  unfold unit
  exact hpow halvings

theorem natAbs_signed (negative : Bool) (magnitude : Nat) :
    (signed negative magnitude).natAbs = magnitude := by
  cases negative
  · exact Int.natAbs_natCast _
  · exact (Int.natAbs_neg _).trans (Int.natAbs_natCast _)

theorem toInt?_of_isZero {x : Double} (h : x.isZero = true) : x.toInt? = some 0 := by
  cases x with
  | finite negative c =>
    have hc : c.val = 0 := beq_iff_eq.1 h
    have hquanta : quanta c = 0 := by
      rw [hc]
      exact quanta_of_lt (by decide)
    cases negative <;> simp [toInt?, signedQuanta?, signed, hquanta]
  | _ => cases h

theorem toPlain_of_ne_zero (negative : Bool) {c : Fin codeCount} (h : c.val ≠ 0) :
    (finite negative c).toPlain =
      (if negative = true then ['-'] else []) ++ (shortest .away c).plain := by
  unfold toPlain
  dsimp only
  rw [if_neg h]
  split
  · exact List.singleton_append.symm
  · exact (List.nil_append _).symm

/-- The text of a finite double is a numeral that reads as its magnitude,
after a `-` if it is negative. -/
theorem exists_toPlain_eq (negative : Bool) (c : Fin codeCount) :
    ∃ run, (finite negative c).toPlain = (if negative = true then ['-'] else []) ++ run ∧
      Numeral.WellFormed run ∧ Numeral.value run = finite false c := by
  by_cases hzero : c.val = 0
  · refine ⟨['0'], ?_, .whole ⟨by simp, by simp⟩, ?_⟩
    · unfold toPlain
      dsimp only
      rw [if_pos hzero]
      cases negative <;> rfl
    · have hdigits : Numeral.AllDigits ['0'] := ⟨by simp, by simp⟩
      have hmagnitude : Numeral.natOf ['0'] * unit = quanta c := by
        rw [hzero, quanta_of_lt (by decide), show Numeral.natOf ['0'] = 0 from rfl, Nat.zero_mul]
      rw [Numeral.value_of_digits hdigits, hmagnitude, ofQuotient_quanta]
  · obtain ⟨hformed, hvalue⟩ := Numeral.value_plain (shortest .away c)
    rw [ofDecimal_shortest] at hvalue
    exact ⟨_, toPlain_of_ne_zero negative hzero, hformed, hvalue⟩

theorem toPlain_ne_nil (x : Double) : x.toPlain ≠ [] := by
  cases x with
  | nan => simp [toPlain]
  | infinite negative => cases negative <;> simp [toPlain]
  | finite negative c =>
    obtain ⟨run, htext, hformed, -⟩ := exists_toPlain_eq negative c
    rw [htext]
    exact List.append_ne_nil_of_right_ne_nil _ hformed.ne_nil

/-- A text of a double is made of digits, points, a `-`, and the letters that
name those that are not finite. -/
theorem mem_toPlain {x : Double} {d : Char} (h : d ∈ x.toPlain) :
    Numeral.isNumeralChar d = true ∨ d ∈ ['-', 'N', 'a', 'i', 'n', 'f'] := by
  cases x with
  | nan =>
    right
    simp only [toPlain, List.mem_cons, List.not_mem_nil, or_false] at h ⊢
    tauto
  | infinite negative =>
    right
    cases negative <;>
    · simp only [toPlain, Bool.false_eq_true, if_true, if_false, List.mem_cons, List.not_mem_nil,
        or_false] at h ⊢
      tauto
  | finite negative c =>
    obtain ⟨run, htext, hformed, -⟩ := exists_toPlain_eq negative c
    rw [htext] at h
    rcases List.mem_append.1 h with hsign | hrun
    · right
      cases negative with
      | true => simp [List.mem_singleton.1 hsign]
      | false => cases hsign
    · left
      exact hformed.isNumeralChar d hrun

theorem finite_of_toPlain_eq {a b : Bool} {c d : Fin codeCount}
    (h : (finite a c).toPlain = (finite b d).toPlain) : finite a c = finite b d := by
  obtain ⟨run, htext, hformed, hvalue⟩ := exists_toPlain_eq a c
  obtain ⟨run', htext', hformed', hvalue'⟩ := exists_toPlain_eq b d
  rw [htext, htext'] at h
  have hsame : run = run' → c = d := by
    rintro rfl
    rw [hvalue] at hvalue'
    cases hvalue'
    rfl
  cases a with
  | true => cases b with
    | true => rw [hsame (List.cons.inj h).2]
    | false => exact absurd h.symm (hformed'.ne_cons (by decide) _)
  | false => cases b with
    | true => exact absurd h (hformed.ne_cons (by decide) _)
    | false => rw [hsame h]

theorem toPlain_ne_of_not_isFinite {x : Double} (h : x.isFinite = false) (a : Bool)
    (c : Fin codeCount) : x.toPlain ≠ (finite a c).toPlain := by
  intro heq
  obtain ⟨run, htext, hformed, -⟩ := exists_toPlain_eq a c
  -- there is a letter in the one text, and none in the other
  have hletters : ∃ d ∈ x.toPlain, d ≠ '-' ∧ Numeral.isNumeralChar d = false := by
    cases x with
    | nan => exact ⟨'N', by decide, by decide, by decide⟩
    | infinite b => cases b <;> exact ⟨'i', by decide, by decide, by decide⟩
    | finite => cases h
  obtain ⟨d, hd, hminus, hletter⟩ := hletters
  rw [heq, htext] at hd
  rcases List.mem_append.1 hd with hd | hd
  · cases a with
    | true => exact hminus (List.mem_singleton.1 hd)
    | false => cases hd
  · rw [hformed.isNumeralChar d hd] at hletter
    cases hletter

/-- **The text of a double tells which it is.** -/
theorem toPlain_injective {x y : Double} (h : x.toPlain = y.toPlain) : x = y := by
  cases x with
  | finite a c => cases y with
    | finite b d => exact finite_of_toPlain_eq h
    | _ => exact absurd h.symm (toPlain_ne_of_not_isFinite rfl a c)
  | nan => cases y with
    | nan => rfl
    | infinite b => cases b <;> cases h
    | finite b d => exact absurd h (toPlain_ne_of_not_isFinite rfl b d)
  | infinite a => cases y with
    | nan => cases a <;> cases h
    | infinite b => cases a <;> cases b <;> first | rfl | cases h
    | finite b d => exact absurd h (toPlain_ne_of_not_isFinite rfl b d)

/-- A double that is a whole number has its magnitude, and its sign unless
it is zero. -/
theorem toInt?_eq_some {x : Double} {n : Int} (h : x.toInt? = some n) :
    ∃ negative c, x = finite negative c ∧ quanta c = n.natAbs * unit ∧
      (negative = decide (n < 0) ∨ c.val = 0) := by
  cases x with
  | finite negative c =>
    refine ⟨negative, c, rfl, ?_⟩
    simp only [toInt?, signedQuanta?] at h
    split at h
    · rename_i hmod
      cases h
      have hq : signed negative (quanta c) / unit * unit = signed negative (quanta c) :=
        Int.ediv_mul_cancel_of_emod_eq_zero hmod
      generalize signed negative (quanta c) / unit = n at hq
      have hmagnitude : quanta c = n.natAbs * unit := by
        rw [← natAbs_signed negative (quanta c), ← hq, Int.natAbs_mul, Int.natAbs_natCast]
      refine ⟨hmagnitude, ?_⟩
      have hunit : (0 : Int) < unit := Int.ofNat_lt.2 unit_pos
      by_cases hn : n < 0
      · have hneg : n * unit < 0 := Int.mul_neg_of_neg_of_pos hn hunit
        cases negative with
        | false =>
          simp only [signed, Bool.false_eq_true, if_false] at hq
          omega
        | true => exact .inl (decide_eq_true hn).symm
      · have hpos : 0 ≤ n * unit := Int.mul_nonneg (Int.not_lt.1 hn) (Int.le_of_lt hunit)
        cases negative with
        | false => exact .inl (decide_eq_false hn).symm
        | true =>
          simp only [signed, if_true] at hq
          exact .inr (code_of_quanta_eq_zero (by omega))
    · cases h
  | _ => cases h

end Double

/-- A magnitude that is a whole number is read from its digits. -/
theorem Numeral.value_digitsOf {m : Nat} {c : Fin Double.codeCount}
    (h : Double.quanta c = m * Double.unit) :
    value (Decimal.digitsOf m) = .finite false c := by
  rw [value_of_digits (allDigits_digitsOf m), natOf_digitsOf, ← h, Double.ofQuotient_quanta]

namespace Number

/-- Both zeros become the whole number zero. -/
theorem ofDouble_of_isZero {x : Double} (h : x.isZero = true) : ofDouble x = integer 0 :=
  ofDouble_eq_integer_iff.2 ⟨0, Double.toInt?_of_isZero h, rfl, rfl⟩

theorem toInt_ofInt_of_fits {n : Int} (h : fits n = true) : (Int64.ofInt n).toInt = n := by
  simp only [fits, Bool.and_eq_true, decide_eq_true_eq] at h
  exact Int64.toInt_ofInt_of_le h.1 h.2

theorem toList_toString_int (n : Int) :
    (toString n).toList = (if n < 0 then ['-'] else []) ++ Decimal.digitsOf n.natAbs := by
  rw [Int.toString_eq_repr, Int.repr_eq_if]
  by_cases h : n < 0
  · have habs : (-n).toNat = n.natAbs := by omega
    rw [if_neg (Int.not_le.2 h), if_pos h, String.toList_append, Nat.toList_repr, habs]
    rfl
  · have habs : n.toNat = n.natAbs := by omega
    rw [if_pos (Int.not_lt.1 h), if_neg h, Nat.toList_repr, habs]
    rfl

/-- **The text of a result reads back.** It is a numeral, perhaps after a
`-`, and reads as the double that the result was made of, up to the sign of
a zero. -/
theorem exists_numeral {x : Double} (h : x.isFinite = true) :
    ∃ minus run, (ofDouble x).text.toList = (if minus = true then ['-'] else []) ++ run ∧
      Numeral.WellFormed run ∧ (Numeral.value run).isFinite = true ∧
      x.numEq ((Numeral.value run).negIf minus) = true := by
  cases hx : ofDouble x with
  | integer i =>
    obtain ⟨n, hn, hfits, rfl⟩ := ofDouble_eq_integer_iff.1 hx
    obtain ⟨negative, c, rfl, hquanta, hsign⟩ := Double.toInt?_eq_some hn
    refine ⟨decide (n < 0), Decimal.digitsOf n.natAbs, ?_,
      .whole (Numeral.allDigits_digitsOf _), ?_⟩
    · rw [text, toInt_ofInt_of_fits hfits, toList_toString_int]
      simp
    · rw [Numeral.value_digitsOf hquanta]
      refine ⟨rfl, ?_⟩
      cases hneg : decide (n < 0) <;> simpa [Double.numEq, Double.neg, hneg] using hsign
  | real y =>
    obtain ⟨rfl, hwhole⟩ := ofDouble_eq_real_iff.1 hx
    cases x with
    | finite negative c =>
      obtain ⟨run, htext, hformed, hvalue⟩ := Double.exists_toPlain_eq negative c
      refine ⟨negative, run, ?_, hformed, ?_⟩
      · rw [text, String.toList_ofList, htext]
      · rw [hvalue]
        refine ⟨rfl, ?_⟩
        cases negative <;> exact Double.numEq_refl rfl
    | _ => cases h

end Number

end Abacus
