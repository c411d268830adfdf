import Abacus.Proofs.CodecLaws
import Abacus.Proofs.ZeroSigns

/-!
# JsonNumbers

Numbers in JSON text, written and read back. The parts of a number can be
told from its text, as long as nothing comes after it that could belong to a
number. A whole number of 64 bits is read exactly. The text of a finite
double always has a fraction or an exponent, so that it is never taken for a
whole number.
-/

namespace Abacus

/-- There is no needless zero in front of a positive number. -/
theorem Decimal.head?_digitsOf {n : Nat} (h : 0 < n) : (digitsOf n).head? ≠ some '0' := by
  induction n using Nat.strongRecOn with
  | ind n ih =>
    rw [digitsOf, Nat.toDigits_eq_if (by decide)]
    by_cases hlt : n < 10
    · rw [if_pos hlt]
      have hdigit : ∀ d, d < 10 → 0 < d → Nat.digitChar d ≠ '0' := by decide
      exact fun heq => hdigit n hlt h (Option.some.inj heq)
    · -- the leading digit is that of the tenth part
      have htenth := ih (n / 10) (by omega) (by omega)
      obtain ⟨c, cs, hcons⟩ := List.exists_cons_of_ne_nil (Numeral.allDigits_digitsOf (n / 10)).1
      rw [hcons] at htenth
      rw [if_neg hlt, ← digitsOf, hcons]
      exact htenth

namespace Json

variable {digits whole frac rest : List Char} {l : Literal} {n : Int}

/-! ## The text of a number -/

/-- No digit comes first. -/
def NoDigit (rest : List Char) : Prop :=
  ∀ c ∈ rest.head?, c.isDigit = false

theorem noDigit_nil : NoDigit [] := by
  intro c hc
  cases hc

theorem noDigit_cons {c : Char} (h : c.isDigit = false) (rest : List Char) :
    NoDigit (c :: rest) := by
  intro d hd
  cases hd
  exact h

namespace Literal

/-- The text of the exponent, which always has a sign. -/
def power (l : Literal) : List Char :=
  match l.exponent? with
  | some e => 'e' :: (if e < 0 then '-' else '+') :: Decimal.digitsOf e.natAbs
  | none => []

/-- The text of what follows the whole digits. -/
def tail (l : Literal) : List Char :=
  match l.frac? with
  | some frac => '.' :: (frac ++ l.power)
  | none => l.power

/-- The text of a number. -/
def text (l : Literal) : List Char :=
  (if l.negative then ['-'] else []) ++ (l.whole ++ l.tail)

/-- There is no needless zero in front, and at least one digit wherever
there are any. -/
structure Proper (l : Literal) : Prop where
  whole : Numeral.AllDigits l.whole
  lead : l.whole = ['0'] ∨ l.whole.head? ≠ some '0'
  frac : ∀ frac ∈ l.frac?, Numeral.AllDigits frac

/-- There is a fraction or an exponent. -/
def Broken (l : Literal) : Prop :=
  l.frac?.isSome = true ∨ l.exponent?.isSome = true

theorem noDigit_power (l : Literal) : NoDigit l.power := by
  unfold power
  split
  · exact noDigit_cons (by decide) _
  · exact noDigit_nil

theorem noDigit_tail (l : Literal) : NoDigit l.tail := by
  unfold tail
  split
  · exact noDigit_cons (by decide) _
  · exact l.noDigit_power

theorem value_of_broken (h : l.Broken) : l.value = l.real := by
  obtain ⟨negative, whole, frac?, exponent⟩ := l
  cases frac? with
  | some => rfl
  | none => cases exponent with
    | some => rfl
    | none => rcases h with h | h <;> cases h

theorem Proper.exists_text_eq_cons (h : l.Proper) :
    ∃ c cs, l.text = c :: cs ∧ (c.isDigit = true ∨ c = '-') := by
  obtain ⟨c, cs, hcons⟩ := List.exists_cons_of_ne_nil h.whole.1
  unfold text
  rw [hcons]
  cases l.negative with
  | true => exact ⟨'-', _, rfl, .inr rfl⟩
  | false => exact ⟨c, _, rfl, .inl (h.whole.2 c (hcons ▸ List.mem_cons_self))⟩

end Literal

/-! ## Reading a number -/

theorem exponent?_signed (e : Int) :
    exponent? ((if e < 0 then '-' else '+') :: Decimal.digitsOf e.natAbs) = some e := by
  have hdigits := Numeral.isDigits_iff.2 (Numeral.allDigits_digitsOf e.natAbs)
  by_cases he : e < 0
  · rw [if_pos he]
    simp only [exponent?, hdigits, Numeral.natOf_digitsOf, if_true]
    exact congrArg some (by omega)
  · rw [if_neg he]
    simp only [exponent?, hdigits, Numeral.natOf_digitsOf, if_true]
    exact congrArg some (Int.natAbs_of_nonneg (Int.not_lt.1 he))

/-- **The parts of a number are read back from its text.** -/
theorem literal?_text (h : l.Proper) : literal? l.text = some l := by
  have hproper : ¬ ¬ (l.whole = ['0'] ∨ (l.whole ≠ [] ∧ l.whole.head? ≠ some '0')) :=
    not_not.2 (h.lead.imp_right fun hlead => ⟨h.whole.1, hlead⟩)
  have hfrac : ¬ l.frac? = some [] := fun heq => (h.frac [] heq).1 rfl
  unfold literal?
  split
  rename_i negative body hsign
  -- the first character is the sign, or else a digit
  obtain ⟨rfl, rfl⟩ : l.negative = negative ∧ l.whole ++ l.tail = body := by
    unfold Literal.text at hsign
    cases hnegative : l.negative with
    | true =>
      rw [hnegative] at hsign
      cases hsign
      exact ⟨rfl, rfl⟩
    | false =>
      rw [hnegative] at hsign
      split at hsign
      · rename_i heq
        obtain ⟨c, cs, hcons⟩ := List.exists_cons_of_ne_nil h.whole.1
        rw [hcons] at heq
        cases heq
        exact absurd (h.whole.2 '-' (hcons ▸ List.mem_cons_self)) (by decide)
      · cases hsign
        exact ⟨rfl, rfl⟩
  simp only [span_append h.whole.2 l.noDigit_tail]
  have hpower := l.noDigit_power
  have hdigits := h.frac
  obtain ⟨negative, whole, frac?, exponent⟩ := l
  cases frac? with
  | none => cases exponent with
    | none => exact if_neg (not_or.2 ⟨hproper, hfrac⟩)
    | some e =>
      refine (if_neg (not_or.2 ⟨hproper, hfrac⟩)).trans ?_
      exact congrArg (Option.map _) (exponent?_signed e)
  | some frac =>
    simp only [Literal.tail]
    simp only [span_append (hdigits frac rfl).2 hpower]
    rw [if_neg (not_or.2 ⟨hproper, hfrac⟩)]
    cases exponent with
    | none => rfl
    | some e => exact congrArg (Option.map _) (exponent?_signed e)

theorem isNumberChar_of_allDigits (h : Numeral.AllDigits digits) :
    ∀ c ∈ digits, isNumberChar c = true := by
  intro c hc
  simp [isNumberChar, h.2 c hc]

theorem Literal.Proper.isNumberChar (h : l.Proper) :
    ∀ c ∈ l.text, Json.isNumberChar c = true := by
  have hnil : ∀ c ∈ ([] : List Char), Json.isNumberChar c = true :=
    fun c hc => absurd hc List.not_mem_nil
  have hpower : ∀ c ∈ l.power, Json.isNumberChar c = true := by
    unfold power
    split
    · rw [List.forall_mem_cons, List.forall_mem_cons]
      refine ⟨by decide, ?_, isNumberChar_of_allDigits (Numeral.allDigits_digitsOf _)⟩
      split <;> decide
    · exact hnil
  have htail : ∀ c ∈ l.tail, Json.isNumberChar c = true := by
    unfold tail
    split
    · rename_i frac hfrac
      rw [List.forall_mem_cons, List.forall_mem_append]
      exact ⟨by decide, isNumberChar_of_allDigits (h.frac frac hfrac), hpower⟩
    · exact hpower
  unfold text
  rw [List.forall_mem_append, List.forall_mem_append]
  refine ⟨?_, isNumberChar_of_allDigits h.whole, htail⟩
  split
  · simp [Json.isNumberChar]
  · exact hnil

/-- A number cannot go on. -/
def EndsNumber (rest : List Char) : Prop :=
  ∀ c ∈ rest.head?, isNumberChar c = false

theorem endsNumber_nil : EndsNumber [] := by
  intro c hc
  cases hc

theorem endsNumber_cons {c : Char} (h : isNumberChar c = false) (cs : List Char) :
    EndsNumber (c :: cs) := by
  intro d hd
  cases hd
  exact h

/-- **A number is read back**, and what comes after it is left. -/
theorem number?_text (h : l.Proper) (hrest : EndsNumber rest) :
    number? (l.text ++ rest) = some (l.value, rest) := by
  have hspan : (l.text ++ rest).span isNumberChar = (l.text, rest) :=
    span_append h.isNumberChar hrest
  simp only [number?, hspan, literal?_text h, Option.map_some]

/-- **A number and what comes after it are told apart.** -/
theorem Literal.Proper.append_inj {l' : Literal} {rest' : List Char} (h : l.Proper)
    (h' : l'.Proper) (hrest : EndsNumber rest) (hrest' : EndsNumber rest')
    (heq : l.text ++ rest = l'.text ++ rest') : l = l' ∧ rest = rest' := by
  have hspan := span_append h.isNumberChar hrest
  have hspan' := span_append h'.isNumberChar hrest'
  rw [heq, hspan', Prod.mk.injEq] at hspan
  obtain ⟨htext, hrests⟩ := hspan
  have hread := literal?_text h
  rw [← htext, literal?_text h'] at hread
  exact ⟨(Option.some.inj hread).symm, hrests.symm⟩

/-! ## Whole numbers -/

/-- The parts of a whole number. -/
def ofInteger (n : Int) : Literal :=
  ⟨decide (n < 0), Decimal.digitsOf n.natAbs, none, none⟩

theorem text_ofInteger (n : Int) : (ofInteger n).text = integerText n := by
  unfold integerText
  by_cases hn : n < 0
  · rw [if_pos hn, Literal.text, ofInteger, decide_eq_true hn]
    show '-' :: (_ ++ []) = _
    rw [List.append_nil]
  · rw [if_neg hn, Literal.text, ofInteger, decide_eq_false hn]
    show _ ++ [] = _
    rw [List.append_nil]

theorem proper_ofInteger (n : Int) : (ofInteger n).Proper := by
  refine ⟨Numeral.allDigits_digitsOf _, ?_, by simp [ofInteger]⟩
  by_cases hn : n.natAbs = 0
  · exact .inl (by rw [ofInteger, hn]; rfl)
  · exact .inr (Decimal.head?_digitsOf (Nat.pos_of_ne_zero hn))

theorem ofInteger_injective {m : Int} (h : ofInteger m = ofInteger n) : m = n := by
  simp only [ofInteger, Literal.mk.injEq, and_true, decide_eq_decide] at h
  obtain ⟨hsign, hdigits⟩ := h
  have habs := congrArg Numeral.natOf hdigits
  rw [Numeral.natOf_digitsOf, Numeral.natOf_digitsOf] at habs
  omega

theorem not_broken_ofInteger (n : Int) : ¬ (ofInteger n).Broken := by
  rintro (h | h) <;> cases h

/-- **A whole number of 64 bits is read exactly.** -/
theorem value_ofInteger (h : IsWord n) : (ofInteger n).value = .integer n := by
  obtain ⟨hlow, hhigh⟩ := h
  unfold wordLimit at hhigh
  simp only [Literal.value, ofInteger, Numeral.natOf_digitsOf, wordLimit]
  by_cases hn : n < 0
  · rw [decide_eq_true hn, if_pos rfl, if_pos (by omega)]
    exact congrArg _ (by omega)
  · rw [decide_eq_false hn, if_neg (by decide), if_pos (by omega)]
    exact congrArg _ (by omega)

/-! ## Doubles -/

/-- A text without a sign is that of a number with a fraction or an
exponent. -/
def SpellsReal (text : List Char) : Prop :=
  ∃ l : Literal, l.Proper ∧ l.Broken ∧ text = l.whole ++ l.tail

theorem spellsReal_point (hwhole : Numeral.AllDigits whole)
    (hlead : whole = ['0'] ∨ whole.head? ≠ some '0') (hfrac : Numeral.AllDigits frac) :
    SpellsReal (whole ++ '.' :: frac) := by
  refine ⟨⟨false, whole, some frac, none⟩, ⟨hwhole, hlead, ?_⟩, .inl rfl, ?_⟩
  · rintro _ ⟨⟩
    exact hfrac
  · show _ = whole ++ '.' :: (frac ++ [])
    rw [List.append_nil]

theorem spellsReal_plain {d : Nat} (h : 0 < d) (e : Nat) :
    SpellsReal (Decimal.plain ⟨d, .negSucc e⟩) := by
  have hall := Numeral.allDigits_digitsOf d
  have hhead := Decimal.head?_digitsOf h
  unfold Decimal.plain
  simp only []
  generalize Decimal.digitsOf d = ds at hall hhead
  by_cases hpoint : e + 1 < ds.length
  · rw [if_pos hpoint]
    refine spellsReal_point ⟨?_, fun c hc => hall.2 c (List.mem_of_mem_take hc)⟩ (.inr ?_)
      ⟨?_, fun c hc => hall.2 c (List.mem_of_mem_drop hc)⟩
    · exact List.ne_nil_of_length_pos (by rw [List.length_take]; omega)
    · rwa [List.head?_take, if_neg (by omega)]
    · exact List.ne_nil_of_length_pos (by rw [List.length_drop]; omega)
  · rw [if_neg hpoint]
    have hzero : Numeral.AllDigits ['0'] := ⟨by simp, by simp⟩
    exact spellsReal_point hzero (.inl rfl) (hall.zeros_append _)

theorem spellsReal_decimalText {d : Decimal} (h : 0 < d.digits) : SpellsReal (decimalText d) := by
  obtain ⟨digits, exponent⟩ := d
  have hall := Numeral.allDigits_digitsOf digits
  have hhead := Decimal.head?_digitsOf h
  unfold decimalText
  simp only []
  generalize exponent + (Decimal.digitsOf digits).length - 1 = place
  by_cases hplace : -5 ≤ place ∧ place ≤ 15
  · rw [if_pos hplace]
    cases exponent with
    | ofNat e =>
      have hexponent : (0 : Int) ≤ .ofNat e := Int.natCast_nonneg e
      rw [if_pos hexponent]
      refine spellsReal_point (hall.append_zeros e) (.inr ?_) ⟨by simp, by simp⟩
      show (Decimal.digitsOf digits ++ List.replicate e '0').head? ≠ some '0'
      obtain ⟨c, cs, hcons⟩ := List.exists_cons_of_ne_nil hall.1
      rw [hcons] at hhead ⊢
      exact hhead
    | negSucc e =>
      have hexponent : ¬ (0 : Int) ≤ .negSucc e := Int.not_le.2 (Int.negSucc_lt_zero e)
      rw [if_neg hexponent]
      exact spellsReal_plain h e
  · rw [if_neg hplace]
    -- the point stands after the first digit, if there is another one
    generalize Decimal.digitsOf digits = ds at hall hhead
    cases ds with
    | nil => exact absurd rfl hall.1
    | cons first more =>
      obtain ⟨hfirst, hmore⟩ := List.forall_mem_cons.1 hall.2
      have hwhole : Numeral.AllDigits [first] := ⟨by simp, by simpa using hfirst⟩
      have hlead : [first].head? ≠ some '0' := hhead
      cases more with
      | nil =>
        exact ⟨⟨false, [first], none, some place⟩, ⟨hwhole, .inr hlead, by simp⟩, .inr rfl, rfl⟩
      | cons second more =>
        refine ⟨⟨false, [first], some (second :: more), some place⟩, ⟨hwhole, .inr hlead, ?_⟩,
          .inr rfl, rfl⟩
        rintro _ ⟨⟩
        exact ⟨by simp, hmore⟩

theorem digits_shortest_pos {tie : Double.Tie} {c : Fin Double.codeCount} (h : c.val ≠ 0) :
    0 < (Double.shortest tie c).digits := by
  have hread := Double.ofDecimal_shortest tie c
  generalize Double.shortest tie c = d at hread
  refine Nat.pos_of_ne_zero fun hzero => h ?_
  -- a decimal number without digits other than zero reads as zero
  obtain ⟨digits, exponent⟩ := d
  simp only at hzero
  have hquotient : (Decimal.quotient ⟨digits, exponent⟩).1 = 0 := by
    rw [hzero]
    cases exponent with
    | ofNat e => exact Nat.zero_mul _
    | negSucc e => rfl
  rw [Double.ofDecimal] at hread
  simp only [hquotient, Nat.zero_mul] at hread
  rw [Double.ofQuotient_zero] at hread
  cases hread
  rfl

/-- **The text of a finite double is that of a number** with a fraction or
an exponent. -/
theorem exists_text_realText {x : Double} (h : x.isFinite = true) :
    ∃ l : Literal, l.Proper ∧ l.Broken ∧ realText x = l.text := by
  cases x with
  | nan => cases h
  | infinite => cases h
  | finite negative c =>
    have hmagnitude : ∃ text, SpellsReal text ∧
        realText (.finite negative c) = if negative = true then '-' :: text else text := by
      unfold realText
      simp only []
      by_cases hzero : c.val = 0
      · rw [if_pos hzero]
        have hdigits : Numeral.AllDigits ['0'] := ⟨by simp, by simp⟩
        exact ⟨_, spellsReal_point hdigits (.inl rfl) hdigits, rfl⟩
      · rw [if_neg hzero]
        exact ⟨_, spellsReal_decimalText (digits_shortest_pos hzero), rfl⟩
    obtain ⟨text, ⟨l, hproper, hbroken, rfl⟩, htext⟩ := hmagnitude
    refine ⟨{ l with negative := negative }, ⟨hproper.whole, hproper.lead, hproper.frac⟩,
      hbroken, ?_⟩
    rw [htext]
    cases negative <;> rfl

end Json

end Abacus
