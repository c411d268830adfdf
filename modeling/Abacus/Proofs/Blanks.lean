import Abacus.Proofs.Meanings
import Abacus.Proofs.Places
import Mathlib.Data.List.DropRight

/-!
# Blanks

White space between two parts of a text. The lexemes other than white space
are the same with it and without it, as long as it does not keep a digit or
point away from another one. A scan takes the same lexemes then, at other
places, and nothing after the scan looks at places.
-/

namespace Abacus

namespace Lexeme

variable {u v w b : List Char}

/-- The meanings of the lexemes of a text other than white space. -/
def words (text : List Char) : List Lexeme :=
  (meanings text).filter (· != .blank)

/-- A digit or point at the end of `u` has none after it at the beginning
of `v`. -/
def Separable (u v : List Char) : Prop :=
  ∀ x ∈ u.getLast?, ∀ y ∈ v.head?,
    ¬ (Numeral.isNumeralChar x = true ∧ Numeral.isNumeralChar y = true)

theorem words_append (h : ∀ x ∈ u.getLast?, ∀ y ∈ v.head?, joined x y = false) :
    words (u ++ v) = words u ++ words v := by
  rw [words, meanings_append h, List.filter_append]
  rfl

theorem words_of_allBlank (h : AllBlank b) : words b = [] := by
  by_cases hne : b = []
  · subst hne
    rfl
  · rw [words, meanings_of_isLexeme (.blank hne h), ofRun_of_allBlank hne h]
    rfl

theorem joined_eq_false {x y : Char} (hblank : Text.isBlank x = false ∨ Text.isBlank y = false)
    (hnumeral : ¬ (Numeral.isNumeralChar x = true ∧ Numeral.isNumeralChar y = true)) :
    joined x y = false := by
  refine Bool.eq_false_iff.2 fun hjoined => ?_
  rcases joined_iff.1 hjoined with ⟨hx, hy⟩ | h
  · rcases hblank with h | h
    · rw [hx] at h
      cases h
    · rw [hy] at h
      cases h
  · exact hnumeral h

/-- A run of white space, together with what is around it. -/
theorem words_around (hb : AllBlank b) (hu : ∀ x ∈ u.getLast?, Text.isBlank x = false)
    (hv : ∀ y ∈ v.head?, Text.isBlank y = false) (h : b = [] → Separable u v) :
    words (u ++ b ++ v) = words u ++ words v := by
  by_cases hne : b = []
  · subst hne
    rw [List.append_nil]
    refine words_append fun x hx y hy => ?_
    exact joined_eq_false (.inl (hu x hx)) (h rfl x hx y hy)
  · -- white space belongs neither to what is not blank nor to a numeral
    have hbefore : ∀ x ∈ u.getLast?, ∀ y ∈ b.head?, joined x y = false := by
      intro x hx y hy
      refine joined_eq_false (.inl (hu x hx)) fun ⟨_, hnumeral⟩ => ?_
      have hblank := hb y (List.mem_of_mem_head? hy)
      rw [isBlank_of_isNumeralChar hnumeral] at hblank
      cases hblank
    have hafter : ∀ x ∈ (u ++ b).getLast?, ∀ y ∈ v.head?, joined x y = false := by
      intro x hx y hy
      rw [List.getLast?_append_of_ne_nil u hne] at hx
      refine joined_eq_false (.inr (hv y hy)) fun ⟨hnumeral, _⟩ => ?_
      have hblank := hb x (List.mem_of_getLast? hx)
      rw [isBlank_of_isNumeralChar hnumeral] at hblank
      cases hblank
    rw [words_append hafter, words_append hbefore, words_of_allBlank hb, List.append_nil]

/-- A text with the white space at its end apart. -/
theorem exists_blank_suffix (u : List Char) :
    ∃ u' b, u = u' ++ b ∧ AllBlank b ∧ ∀ x ∈ u'.getLast?, Text.isBlank x = false := by
  refine ⟨u.rdropWhile Text.isBlank, u.rtakeWhile Text.isBlank,
    List.rdropWhile_append_rtakeWhile.symm, fun _ => List.mem_rtakeWhile_imp, ?_⟩
  intro x hx
  have hne : u.rdropWhile Text.isBlank ≠ [] := by
    intro hnil
    rw [hnil] at hx
    cases hx
  rw [List.getLast?_eq_some_getLast hne] at hx
  cases hx
  simpa using List.rdropWhile_last_not Text.isBlank u hne

/-- A text with the white space at its beginning apart. -/
theorem exists_blank_prefix (v : List Char) :
    ∃ b v', v = b ++ v' ∧ AllBlank b ∧ ∀ y ∈ v'.head?, Text.isBlank y = false := by
  refine ⟨v.takeWhile Text.isBlank, v.dropWhile Text.isBlank,
    List.takeWhile_append_dropWhile.symm, fun _ => List.mem_takeWhile_imp, ?_⟩
  intro y hy
  have hhead := List.head?_dropWhile_not Text.isBlank v
  rwa [hy] at hhead

/-- **White space may be put in** anywhere but between digits and points. -/
theorem words_insert (hw : AllBlank w) (h : Separable u v) :
    words (u ++ w ++ v) = words (u ++ v) := by
  -- with the white space that is there already it is one run
  obtain ⟨u', b, rfl, hb, hu⟩ := exists_blank_suffix u
  obtain ⟨c, v', rfl, hc, hv⟩ := exists_blank_prefix v
  have hinserted : AllBlank (b ++ w ++ c) := by
    intro x hx
    simp only [List.mem_append] at hx
    rcases hx with (hx | hx) | hx
    · exact hb x hx
    · exact hw x hx
    · exact hc x hx
  have hthere : AllBlank (b ++ c) := by
    intro x hx
    rcases List.mem_append.1 hx with hx | hx
    · exact hb x hx
    · exact hc x hx
  have hedge : b = [] → c = [] → Separable u' v' := by
    rintro rfl rfl
    rwa [List.append_nil] at h
  calc words (u' ++ b ++ w ++ (c ++ v'))
      = words (u' ++ (b ++ w ++ c) ++ v') := by simp only [List.append_assoc]
    _ = words u' ++ words v' := by
        refine words_around hinserted hu hv fun hnil => ?_
        simp only [List.append_eq_nil_iff] at hnil
        exact hedge hnil.1.1 hnil.2
    _ = words (u' ++ (b ++ c) ++ v') := by
        refine (words_around hthere hu hv fun hnil => ?_).symm
        simp only [List.append_eq_nil_iff] at hnil
        exact hedge hnil.1 hnil.2
    _ = words (u' ++ b ++ (c ++ v')) := by simp only [List.append_assoc]

end Lexeme

/-! ## Scans -/

namespace Scan

variable {room : Nat} {xs ys : List Placed}

theorem taken_filter (room : Nat) (xs : List Placed) :
    taken room (xs.filter (·.meaning != .blank)) = taken room xs := by
  induction xs generalizing room with
  | nil => rfl
  | cons x xs ih => cases h : x.meaning with
    | blank => rw [List.filter_cons_of_neg (by simp [h]), ih, taken_blank h]
    | token kind =>
      rw [List.filter_cons_of_pos (by simp [h])]
      cases room with
      | zero => rw [taken_full, taken_full]
      | succ room => rw [taken_token h, taken_token h, ih]
    | bad cause =>
      rw [List.filter_cons_of_pos (by simp [h])]
      cases room with
      | zero => rw [taken_full, taken_full]
      | succ room => rw [taken_bad h, taken_bad h, ih]

/-- What is taken depends on what the lexemes mean. -/
theorem map_meaning_taken (h : xs.map Placed.meaning = ys.map Placed.meaning) (room : Nat) :
    (taken room xs).map Placed.meaning = (taken room ys).map Placed.meaning := by
  induction xs generalizing ys room with
  | nil =>
    rw [List.map_nil] at h
    rw [List.map_eq_nil_iff.1 h.symm]
  | cons x xs ih =>
    obtain ⟨y, ys, rfl, hy, hys⟩ := List.map_eq_cons_iff.1 h.symm
    cases hx : x.meaning with
    | blank => rw [taken_blank hx, taken_blank (hy.trans hx), ih hys.symm]
    | token kind => cases room with
      | zero => rw [taken_full, taken_full]
      | succ room =>
        rw [taken_token hx, taken_token (hy.trans hx), List.map_cons, List.map_cons, hy,
          ih hys.symm]
    | bad cause => cases room with
      | zero => rw [taken_full, taken_full]
      | succ room =>
        rw [taken_bad hx, taken_bad (hy.trans hx), List.map_cons, List.map_cons, hy,
          ih hys.symm]

/-- **A scan does not take white space**: what it finds depends on the
other lexemes. -/
theorem alike_of_words {text text' : List Char} (h : Lexeme.words text = Lexeme.words text') :
    (ofText text).Alike (ofText text') := by
  have hwords : ∀ text, ((placed .origin (Lexeme.runs text)).filter
      (·.meaning != .blank)).map Placed.meaning = Lexeme.words text := by
    intro text
    rw [Lexeme.words, Lexeme.meanings, ← map_meaning_placed .origin, List.filter_map]
    rfl
  have htaken : (taken maxFaults (placed .origin (Lexeme.runs text))).map Placed.meaning =
      (taken maxFaults (placed .origin (Lexeme.runs text'))).map Placed.meaning := by
    rw [← taken_filter, ← taken_filter maxFaults (placed .origin (Lexeme.runs text'))]
    exact map_meaning_taken ((hwords text).trans (h.trans (hwords text').symm)) maxFaults
  obtain ⟨stop, htokens⟩ := exists_tokens_ofText text
  obtain ⟨stop', htokens'⟩ := exists_tokens_ofText text'
  constructor
  · rw [htokens, htokens', List.map_append, List.map_append, map_kind_filterMap,
      map_kind_filterMap, htaken]
    rfl
  · rw [faults_ofText, faults_ofText, ← filterMap_fault?_taken, ← filterMap_fault?_taken,
      map_cause_filterMap, map_cause_filterMap, htaken]

end Scan

/-! ## What is said -/

/-- Two diagnostics say the same, if not of the same place. -/
structure Diagnostic.SaysSame (d d' : Diagnostic) : Prop where
  kind : d.kind = d'.kind
  code : d.code = d'.code
  category : d.category = d'.category
  message : d.message = d'.message
  suggestion : d.suggestion? = d'.suggestion?

/-- What is said depends on the cause. -/
theorem Fault.saysSame {f f' : Fault} (h : f.cause = f'.cause) (source source' : Source) :
    (f.diagnose source).SaysSame (f'.diagnose source') := by
  obtain ⟨cause, s⟩ := f
  obtain ⟨cause', s'⟩ := f'
  cases h
  exact ⟨rfl, rfl, rfl, rfl, rfl⟩

/-- Two logs that count as many faults and say the same of each they keep. -/
structure DiagnosticLog.SaysSame (log log' : DiagnosticLog) : Prop where
  total : log.total = log'.total
  stored : List.Forall₂ Diagnostic.SaysSame log.stored log'.stored

theorem Faults.log_saysSame {faults faults' : Faults} (h : faults.causes = faults'.causes)
    (source source' : Source) : (faults.log source).SaysSame (faults'.log source') := by
  have hcauses : List.Forall₂ (· = ·) (faults.toList.map Fault.cause)
      (faults'.toList.map Fault.cause) := by
    rw [List.forall₂_eq_eq_eq]
    exact h
  have hlength := hcauses.length_eq
  rw [List.forall₂_map_left_iff, List.forall₂_map_right_iff] at hcauses
  have hsame : List.Forall₂ Diagnostic.SaysSame (faults.toList.map (Fault.diagnose source))
      (faults'.toList.map (Fault.diagnose source')) := by
    rw [List.forall₂_map_left_iff, List.forall₂_map_right_iff]
    exact hcauses.imp fun f f' hcause => Fault.saysSame hcause source source'
  rw [Faults.log, Faults.log, Source.logOf_eq, Source.logOf_eq]
  constructor
  · simpa using hlength
  · exact List.forall₂_take _ hsame

/-- Two calculations that agree without places both succeed with the same
number, or both fail for the same causes. -/
theorem calculate_cases (limits : Limits) {text text' : List Char}
    (h : (Scan.ofText text).Alike (Scan.ofText text')) :
    (∃ n, calculate limits text = .ok n ∧ calculate limits text' = .ok n) ∨
      ∃ faults faults', calculate limits text = .error faults ∧
        calculate limits text' = .error faults' ∧ faults.causes = faults'.causes := by
  have hsame := calculate_congr limits h
  cases hleft : calculate limits text with
  | ok n => cases hright : calculate limits text' with
    | ok n' =>
      rw [hleft, hright] at hsame
      cases hsame
      exact .inl ⟨n, rfl, rfl⟩
    | error faults =>
      rw [hleft, hright] at hsame
      cases hsame
  | error faults => cases hright : calculate limits text' with
    | ok n =>
      rw [hleft, hright] at hsame
      cases hsame
    | error faults' =>
      rw [hleft, hright, mapError_error, mapError_error, Except.error.injEq] at hsame
      exact .inr ⟨faults, faults', rfl, rfl, hsame⟩

/-- **White space between lexemes does not matter.** Put in anywhere but
between two characters that are digits or points, white space changes
neither the number a text evaluates to under any limits, nor what the error
says if there is one, nor what a check says, how often and in which
order. -/
theorem evaluate_insert_blank {u w v : String} (limits : Limits)
    (hblank : ∀ c ∈ w.toList, Text.isBlank c = true)
    (hedge : ∀ x ∈ u.toList.getLast?, ∀ y ∈ v.toList.head?,
      ¬ ((x.isDigit = true ∨ x = '.') ∧ (y.isDigit = true ∨ y = '.'))) :
    ((∃ n, evaluate (u ++ w ++ v) limits = .ok n ∧ evaluate (u ++ v) limits = .ok n) ∨
      ∃ d d', evaluate (u ++ w ++ v) limits = .error d ∧
        evaluate (u ++ v) limits = .error d' ∧ d.SaysSame d') ∧
    (check (u ++ w ++ v)).SaysSame (check (u ++ v)) := by
  have hseparable : Lexeme.Separable u.toList v.toList := by
    intro x hx y hy hnumeral
    rw [Lexeme.isNumeralChar_iff, Lexeme.isNumeralChar_iff] at hnumeral
    exact hedge x hx y hy hnumeral
  have hwords := Lexeme.words_insert hblank hseparable
  rw [← String.toList_append, ← String.toList_append, ← String.toList_append] at hwords
  have halike := Scan.alike_of_words hwords
  constructor
  · rcases calculate_cases limits halike with
      ⟨n, hleft, hright⟩ | ⟨faults, faults', hleft, hright, hcauses⟩
    · exact .inl ⟨n, evaluate_of_ok hleft, evaluate_of_ok hright⟩
    · have hfirst : faults.first.cause = faults'.first.cause := by
        simp only [Faults.causes, Faults.toList, List.map_cons, List.cons.injEq] at hcauses
        exact hcauses.1
      exact .inr ⟨_, _, evaluate_of_error hleft, evaluate_of_error hright,
        Fault.saysSame hfirst _ _⟩
  · rcases calculate_cases .standard halike with
      ⟨n, hleft, hright⟩ | ⟨faults, faults', hleft, hright, hcauses⟩
    · rw [check_of_ok hleft, check_of_ok hright]
      exact ⟨rfl, .nil⟩
    · rw [check_of_error hleft, check_of_error hright]
      exact Faults.log_saysSame hcauses _ _

/-- A line feed after a bad character changes nothing but places. -/
theorem evaluate_insert_blank_lineFeed :
    (check ("1 $" ++ "2")).stored.map Diagnostic.message = ["unexpected character '$'"] ∧
      (check ("1 $" ++ "\n " ++ "2")).SaysSame (check ("1 $" ++ "2")) := by
  have hblank : ∀ c ∈ "\n ".toList, Text.isBlank c = true := by
    intro c hc
    rcases List.mem_pair.1 hc with rfl | rfl
    · rfl
    · rfl
  have hedge : ∀ x ∈ "1 $".toList.getLast?, ∀ y ∈ "2".toList.head?,
      ¬ ((x.isDigit = true ∨ x = '.') ∧ (y.isDigit = true ∨ y = '.')) := by
    intro x hx y _ h
    cases hx
    exact absurd h.1 (by decide)
  exact ⟨by decide +kernel, (evaluate_insert_blank .standard hblank hedge).2⟩

end Abacus
