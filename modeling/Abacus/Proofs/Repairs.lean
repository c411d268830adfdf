import Abacus.Proofs.Recovery

/-!
# Repairs

What is said of a run of digits and points that is not a numeral. Such a run
has too many points, or it is nothing but a point, or its one point is its
first or its last character; the hint goes by which of these it is. What a
hint offers instead of the run is a numeral, and a text by itself.
-/

namespace Abacus

/-- A numeral by itself is one token, the number that it spells. -/
theorem Scan.ofText_numeral {run : List Char} (h : Numeral.WellFormed run) :
    Scan.ofText run =
      ⟨[⟨.number (Numeral.value run), spanOf .origin run⟩,
        ⟨.endOfInput, .point (Position.origin.after run)⟩], []⟩ := by
  have hall : Lexeme.AllNumeral run := fun c hc =>
    Lexeme.isNumeralChar_iff.1 (h.isNumeralChar c hc)
  have hcut : Lexeme.IsCut run [run] :=
    ⟨List.flatten_singleton .., by simpa using Lexeme.IsLexeme.numeral h.ne_nil hall, by simp⟩
  rw [ofText, ← Lexeme.isCut_iff.1 hcut, maxFaults, collect_token (Lexeme.ofRun_of_wellFormed h)]
  rfl

namespace Numeral

variable {run digits frac whole : List Char} {d : Defect}

/-! ## Points -/

theorem AllDigits.count_point (h : AllDigits digits) : digits.count '.' = 0 := by
  rw [List.count_eq_zero]
  intro hpoint
  simpa using h.ne_point '.' hpoint

theorem isDigit_of_allNumeral (all : Lexeme.AllNumeral run) (h : run.count '.' = 0) :
    ∀ c ∈ run, c.isDigit = true := by
  intro c hc
  rcases all c hc with hdigit | rfl
  · exact hdigit
  · exact absurd hc (List.count_eq_zero.1 h)

theorem AllDigits.head?_ne_point (h : AllDigits digits) (rest : List Char) :
    (digits ++ rest).head? ≠ some '.' := by
  intro hhead
  rw [List.head?_append_of_ne_nil _ h.1] at hhead
  simpa using h.ne_point '.' (List.mem_of_mem_head? hhead)

theorem WellFormed.count_point_le (h : WellFormed run) : run.count '.' ≤ 1 := by
  cases h with
  | whole h =>
    rw [h.count_point]
    exact Nat.zero_le 1
  | fraction h h' =>
    rw [List.count_append, List.count_cons_self, h.count_point, h'.count_point]

/-- A numeral ends in a digit. -/
theorem WellFormed.getLast?_ne_point (h : WellFormed run) : run.getLast? ≠ some '.' := by
  have hdigits : ∀ {text : List Char}, AllDigits text → text.getLast? ≠ some '.' := by
    intro text htext hlast
    simpa using htext.ne_point '.' (List.mem_of_getLast? hlast)
  cases h with
  | whole h => exact hdigits h
  | fraction h h' =>
    rw [List.getLast?_append_of_ne_nil _ (List.cons_ne_nil _ _), List.getLast?_cons_of_ne_nil h'.1]
    exact hdigits h'

/-- A numeral begins with a digit. -/
theorem WellFormed.head?_ne_point (h : WellFormed run) : run.head? ≠ some '.' := by
  cases h with
  | whole h =>
    have hhead := h.head?_ne_point []
    rwa [List.append_nil] at hhead
  | fraction h h' => exact h.head?_ne_point _

/-! ## Defects -/

/-- The defects that a run of digits and points may have. -/
inductive Broken : List Char → Defect → Prop
  | lonePoint : Broken ['.'] .lonePoint
  | manyPoints {run : List Char} (h : 2 ≤ run.count '.') : Broken run .manyPoints
  | leadingPoint {frac : List Char} (h : AllDigits frac) :
      Broken ('.' :: frac) (.leadingPoint frac)
  | trailingPoint {whole : List Char} (h : AllDigits whole) :
      Broken (whole ++ ['.']) (.trailingPoint whole)

/-- A run with one point at most is a numeral, or broken at one of its
ends. -/
theorem exists_broken (ne_nil : run ≠ []) (all : Lexeme.AllNumeral run)
    (bad : ¬ WellFormed run) : ∃ d, Broken run d := by
  by_cases hmany : 2 ≤ run.count '.'
  · exact ⟨_, .manyPoints hmany⟩
  · by_cases hpoint : '.' ∈ run
    · -- what stands on either side of the only point is digits or nothing
      obtain ⟨u, v, rfl⟩ := List.append_of_mem hpoint
      rw [List.count_append, List.count_cons_self] at hmany
      have hu := isDigit_of_allNumeral (fun c hc => all c (List.mem_append_left _ hc))
        (show u.count '.' = 0 by omega)
      have hv := isDigit_of_allNumeral
        (fun c hc => all c (List.mem_append_right _ (List.mem_cons_of_mem _ hc)))
        (show v.count '.' = 0 by omega)
      by_cases hnone : u = []
      · subst hnone
        by_cases hnone' : v = []
        · subst hnone'
          exact ⟨_, .lonePoint⟩
        · exact ⟨_, .leadingPoint ⟨hnone', hv⟩⟩
      · by_cases hnone' : v = []
        · subst hnone'
          exact ⟨_, .trailingPoint ⟨hnone, hu⟩⟩
        · exact absurd (.fraction ⟨hnone, hu⟩ ⟨hnone', hv⟩) bad
    · have hdigits := isDigit_of_allNumeral all (List.count_eq_zero.2 hpoint)
      exact absurd (.whole ⟨ne_nil, hdigits⟩) bad

/-- The tests on a run find its defect. -/
theorem Broken.defect_eq (h : Broken run d) : defect run = d := by
  cases h with
  | lonePoint => rfl
  | manyPoints h =>
    have hlone : run ≠ ['.'] := by
      rintro rfl
      exact absurd h (by decide)
    rw [defect, if_neg hlone, if_pos (Nat.lt_of_succ_le h)]
  | @leadingPoint frac h =>
    have hlone : '.' :: frac ≠ ['.'] := by
      intro heq
      exact h.1 (List.cons.inj heq).2
    have hone : ¬ 1 < ('.' :: frac).count '.' := by
      rw [List.count_cons_self, h.count_point]
      decide
    rw [defect, if_neg hlone, if_neg hone]
    rfl
  | @trailingPoint whole h =>
    have hlone : whole ++ ['.'] ≠ ['.'] := by
      intro heq
      exact h.1 (List.append_left_eq_self.1 heq)
    have hone : ¬ 1 < (whole ++ ['.']).count '.' := by
      rw [List.count_append, h.count_point]
      decide
    rw [defect, if_neg hlone, if_neg hone, if_neg (h.head?_ne_point ['.']),
      if_pos List.getLast?_concat, List.dropLast_concat]

theorem Broken.not_wellFormed (h : Broken run d) : ¬ WellFormed run := by
  intro hformed
  cases h with
  | lonePoint => exact hformed.head?_ne_point rfl
  | manyPoints h => exact absurd hformed.count_point_le (by omega)
  | leadingPoint => exact hformed.head?_ne_point rfl
  | trailingPoint => exact hformed.getLast?_ne_point List.getLast?_concat

/-- **The defects of runs.** A run of digits and points is broken exactly
when it is not taken for a numeral, and the tests on it find the defect; so
there is always one of the four. -/
theorem broken_iff (ne_nil : run ≠ []) (all : Lexeme.AllNumeral run) :
    Broken run d ↔ isNumeral run = false ∧ defect run = d := by
  rw [Bool.eq_false_iff, Ne, isNumeral_iff]
  constructor
  · intro h
    exact ⟨h.not_wellFormed, h.defect_eq⟩
  · rintro ⟨bad, rfl⟩
    obtain ⟨d, h⟩ := exists_broken ne_nil all bad
    rwa [h.defect_eq]

/-! ## Hints -/

/-- A text that is a numeral, and by itself one token and nothing wrong. -/
structure IsNumberText (text : List Char) : Prop where
  ne_nil : text ≠ []
  isNumeral : isNumeral text = true
  scan : ∃ span stop, Scan.ofText text =
    ⟨[⟨.number (value text), span⟩, ⟨.endOfInput, .point stop⟩], []⟩

theorem WellFormed.isNumberText (h : WellFormed run) : IsNumberText run :=
  ⟨h.ne_nil, (isNumeral_iff run).2 h, _, _, Scan.ofText_numeral h⟩

/-- **What a hint offers** is a number text. -/
theorem Broken.isNumberText (h : Broken run d) : ∀ text ∈ d.repairs, IsNumberText text := by
  intro text htext
  have hzero : AllDigits ['0'] := ⟨by simp, by simp⟩
  cases h with
  | lonePoint | manyPoints => cases htext
  | leadingPoint h =>
    rw [List.mem_singleton.1 htext]
    exact (WellFormed.fraction hzero h).isNumberText
  | trailingPoint h =>
    simp only [Defect.repairs, List.mem_cons, List.not_mem_nil, or_false] at htext
    rcases htext with rfl | rfl
    · exact (WellFormed.whole h).isNumberText
    · exact (WellFormed.fraction h hzero).isNumberText

theorem hint_leadingPoint (frac : List Char) :
    (Defect.leadingPoint frac).hint = "write a leading zero: '0." ++ String.ofList frac ++ "'" := by
  rw [← String.toList_inj]
  simp [Defect.hint, Defect.repairs, quoted]

theorem hint_trailingPoint (whole : List Char) :
    (Defect.trailingPoint whole).hint =
      "drop the trailing point ('" ++ String.ofList whole ++ "') or add a fraction ('" ++
        String.ofList whole ++ ".0')" := by
  rw [← String.toList_inj]
  simp [Defect.hint, Defect.repairs, quoted]

/-- The hint for no defect in particular is never given. -/
theorem Broken.hint_ne (h : Broken run d) : d.hint ≠ Defect.other.hint := by
  intro heq
  have hhead := congrArg (·.toList.head?) heq
  have hother : Defect.other.hint.toList.head? = some 'n' := rfl
  simp only [hother] at hhead
  cases h with
  | lonePoint | manyPoints => exact absurd hhead (by decide)
  | leadingPoint =>
    rw [hint_leadingPoint] at hhead
    simp at hhead
  | trailingPoint =>
    rw [hint_trailingPoint] at hhead
    simp at hhead

/-- **Hints mend numerals.** A run of digits and points that is refused has a
hint, and never the general one. It says that there is more than one point
when there is, and that the point needs digits around it when there is
nothing else. In every other case the run has one point, at its beginning or
its end, and each text that the hint quotes is a numeral, which a scan takes
for one number and nothing wrong. -/
theorem suggestion?_of_rejected {cause : Cause} (all : Lexeme.AllNumeral run)
    (rejected : Lexeme.ofRun run = .bad cause) :
    ∃ hint, cause.suggestion? = some hint ∧
      hint ≠ "numbers are written as digits with an optional fractional part" ∧
      (2 ≤ run.count '.' → hint = "a number may contain at most one decimal point") ∧
      (run = ['.'] → hint = "a decimal point must sit between digits") ∧
      (run.count '.' < 2 → run ≠ ['.'] → run.count '.' = 1 ∧
        ((∃ frac, run = '.' :: frac ∧
            hint = "write a leading zero: '0." ++ String.ofList frac ++ "'" ∧
            IsNumberText ('0' :: '.' :: frac)) ∨
          ∃ whole, run = whole ++ ['.'] ∧
            hint = "drop the trailing point ('" ++ String.ofList whole ++
              "') or add a fraction ('" ++ String.ofList whole ++ ".0')" ∧
            IsNumberText whole ∧ IsNumberText (whole ++ ['.', '0']))) := by
  have ne_nil : run ≠ [] := by
    rintro rfl
    cases rejected
  have hcause : isNumeral run = false ∧ cause = .malformedNumeral run := by
    rw [Lexeme.ofRun_of_allNumeral ne_nil all, Lexeme.ofNumeral] at rejected
    split at rejected
    · cases rejected
    · cases rejected
      exact ⟨Bool.eq_false_iff.2 ‹_›, rfl⟩
  obtain ⟨hbad, rfl⟩ := hcause
  have hbroken : Broken run (defect run) := (broken_iff ne_nil all).2 ⟨hbad, rfl⟩
  refine ⟨(defect run).hint, rfl, hbroken.hint_ne, ?_⟩
  have hrepairs := hbroken.isNumberText
  generalize defect run = d at hbroken hrepairs
  cases hbroken with
  | lonePoint => exact ⟨fun h => absurd h (by decide), fun _ => rfl, fun _ h => absurd rfl h⟩
  | manyPoints h =>
    refine ⟨fun _ => rfl, ?_, fun hfew => absurd h (Nat.not_le.2 hfew)⟩
    rintro rfl
    exact absurd h (by decide)
  | @leadingPoint frac h =>
    have hcount : ('.' :: frac).count '.' = 1 := by
      rw [List.count_cons_self, h.count_point]
    refine ⟨fun hmany => by omega, fun hlone => absurd (List.cons.inj hlone).2 h.1, ?_⟩
    intro _ _
    exact ⟨hcount, .inl ⟨frac, rfl, hint_leadingPoint frac, hrepairs _ (by simp [Defect.repairs])⟩⟩
  | @trailingPoint whole h =>
    have hcount : (whole ++ ['.']).count '.' = 1 := by
      rw [List.count_append, h.count_point]
      rfl
    refine ⟨fun hmany => by omega, fun hlone => absurd (List.append_left_eq_self.1 hlone) h.1, ?_⟩
    intro _ _
    exact ⟨hcount, .inr ⟨whole, rfl, hint_trailingPoint whole,
      hrepairs _ (by simp [Defect.repairs]), hrepairs _ (by simp [Defect.repairs])⟩⟩

/-- The run `12.` is refused, and may be mended to `12` or `12.0`. -/
theorem suggestion?_of_rejected_trailing :
    let run := ['1', '2', '.']
    Lexeme.AllNumeral run ∧ Lexeme.ofRun run = .bad (.malformedNumeral run) ∧
      ∃ hint, (Cause.malformedNumeral run).suggestion? = some hint ∧
        hint = "drop the trailing point ('12') or add a fraction ('12.0')" ∧
        IsNumberText ['1', '2'] ∧ IsNumberText ['1', '2', '.', '0'] := by
  intro run
  have hall : Lexeme.AllNumeral run := by
    intro c hc
    simp only [run, List.mem_cons, List.not_mem_nil, or_false] at hc
    rcases hc with rfl | rfl | rfl <;> decide
  have hbad : Lexeme.ofRun run = .bad (.malformedNumeral run) := by decide
  obtain ⟨hint, hsome, -, -, -, hends⟩ := suggestion?_of_rejected hall hbad
  obtain ⟨-, ⟨frac, hfrac, -⟩ | ⟨whole, hwhole, htext, hdropped, hpadded⟩⟩ :=
    hends (by decide) (by decide)
  · simp [run] at hfrac
  · obtain rfl : ['1', '2'] = whole := (List.append_inj' hwhole rfl).1
    exact ⟨hall, hbad, hint, hsome, htext, hdropped, hpadded⟩

end Numeral

end Abacus
