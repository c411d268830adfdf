import Abacus.Numeral
import Mathlib.Data.List.TakeDrop

/-!
# Numerals

Which runs of digits and points are numerals, said without cutting a run
at its first point.
-/

namespace Abacus

/-- A stretch ends where the next character is of another kind. -/
theorem span_append {front rest : List Char} {p : Char → Bool} (h : ∀ c ∈ front, p c = true)
    (hrest : ∀ c ∈ rest.head?, p c = false) : (front ++ rest).span p = (front, rest) := by
  have hnone : rest.takeWhile p = [] ∧ rest.dropWhile p = rest := by
    cases rest with
    | nil => exact ⟨rfl, rfl⟩
    | cons c rest =>
      have hc : ¬ p c = true := by simp [hrest c rfl]
      exact ⟨List.takeWhile_cons_of_neg hc, List.dropWhile_cons_of_neg hc⟩
  rw [List.span_eq_takeWhile_dropWhile, List.takeWhile_append_of_pos h,
    List.dropWhile_append_of_pos h, hnone.1, hnone.2, List.append_nil]

namespace Numeral

/-- At least one digit and nothing else. -/
def AllDigits (text : List Char) : Prop :=
  text ≠ [] ∧ ∀ c ∈ text, c.isDigit = true

/-- Digits, or digits with a point between them. -/
inductive WellFormed : List Char → Prop
  | whole {digits : List Char} (h : AllDigits digits) : WellFormed digits
  | fraction {digits frac : List Char} (h : AllDigits digits) (h' : AllDigits frac) :
      WellFormed (digits ++ '.' :: frac)

theorem isDigits_iff {text : List Char} : isDigits text = true ↔ AllDigits text := by
  simp [isDigits, AllDigits]

theorem AllDigits.ne_point {digits : List Char} (h : AllDigits digits) :
    ∀ c ∈ digits, (c != '.') = true := by
  intro c hc
  have hdigit := h.2 c hc
  rw [bne_iff_ne]
  rintro rfl
  exact absurd hdigit (by decide)

theorem parts_of_digits {digits : List Char} (h : AllDigits digits) :
    parts digits = (digits, none) := by
  have hspan : (digits ++ []).span (· != '.') = (digits, []) :=
    span_append h.ne_point (by simp)
  rw [List.append_nil] at hspan
  rw [parts, hspan]

theorem parts_append_point {digits : List Char} (h : AllDigits digits) (frac : List Char) :
    parts (digits ++ '.' :: frac) = (digits, some frac) := by
  have hspan : (digits ++ '.' :: frac).span (· != '.') = (digits, '.' :: frac) :=
    span_append h.ne_point (by simp)
  rw [parts, hspan]

/-- The parts of a run make it up again. -/
theorem parts_cases (run : List Char) :
    parts run = (run, none) ∨
      ∃ whole frac, parts run = (whole, some frac) ∧ run = whole ++ '.' :: frac := by
  have hrun := List.takeWhile_append_dropWhile (p := (· != '.')) (l := run)
  cases hdrop : run.dropWhile (· != '.') with
  | nil =>
    rw [hdrop, List.append_nil] at hrun
    left
    rw [parts, List.span_eq_takeWhile_dropWhile, hdrop, hrun]
  | cons c frac =>
    have hpoint : c = '.' := by
      have := List.head_dropWhile_not (· != '.') (l := run) (by simp [hdrop])
      simpa [hdrop] using this
    rw [hdrop, hpoint] at hrun
    right
    refine ⟨_, frac, ?_, hrun.symm⟩
    rw [parts, List.span_eq_takeWhile_dropWhile, hdrop]

/-- **A run is taken for a numeral exactly when it is well formed.** -/
theorem isNumeral_iff (run : List Char) : isNumeral run = true ↔ WellFormed run := by
  constructor
  · intro h
    rcases parts_cases run with hparts | ⟨whole, frac, hparts, rfl⟩
    · simp only [isNumeral, hparts] at h
      exact .whole (isDigits_iff.1 h)
    · simp only [isNumeral, hparts, Bool.and_eq_true] at h
      exact .fraction (isDigits_iff.1 h.1) (isDigits_iff.1 h.2)
  · intro h
    cases h with
    | whole h => simp only [isNumeral, parts_of_digits h, isDigits_iff.2 h]
    | fraction h h' =>
      simp only [isNumeral, parts_append_point h, isDigits_iff.2 h, isDigits_iff.2 h',
        Bool.and_self]

theorem WellFormed.ne_nil {run : List Char} (h : WellFormed run) : run ≠ [] := by
  cases h with
  | whole h => exact h.1
  | fraction => simp

theorem WellFormed.isNumeralChar {run : List Char} (h : WellFormed run) :
    ∀ c ∈ run, isNumeralChar c = true := by
  intro c hc
  cases h with
  | whole h => simp [Numeral.isNumeralChar, h.2 c hc]
  | fraction h h' =>
    rcases List.mem_append.1 hc with hc | hc
    · simp [Numeral.isNumeralChar, h.2 c hc]
    · rcases List.mem_cons.1 hc with rfl | hc
      · rfl
      · simp [Numeral.isNumeralChar, h'.2 c hc]

theorem WellFormed.ne_cons {run : List Char} (h : WellFormed run) {c : Char}
    (hc : Numeral.isNumeralChar c = false) (cs : List Char) : run ≠ c :: cs := by
  rintro rfl
  rw [h.isNumeralChar c List.mem_cons_self] at hc
  cases hc

end Numeral

end Abacus
