import Abacus.Proofs.Recovery

/-!
# Meanings

The meanings of the lexemes of a text, in order, for a text that is put
together from parts. A symbol is a lexeme by itself, so the lexemes on its
two sides are those of the two parts; a numeral stays one lexeme where no
digit or point comes before or after it.
-/

namespace Abacus

namespace Lexeme

variable {c : Char} {run u v : List Char}

/-- The meanings of the lexemes of a text. -/
def meanings (text : List Char) : List Lexeme :=
  (runs text).map ofRun

/-- The tokens among the lexemes of a text. -/
def kinds (text : List Char) : List TokenKind :=
  (meanings text).filterMap kind?

/-- What is wrong with the lexemes of a text. -/
def causes (text : List Char) : List Cause :=
  (meanings text).filterMap cause?

/-! ## Parts of a text -/

theorem joined_of_isSymbol (h : IsSymbol c) (d : Char) :
    joined c d = false ∧ joined d c = false := by
  obtain ⟨hblank, hnumeral⟩ := isSymbol_iff.1 h
  simp [joined, hblank, hnumeral]

theorem meanings_append (h : ∀ x ∈ u.getLast?, ∀ y ∈ v.head?, joined x y = false) :
    meanings (u ++ v) = meanings u ++ meanings v := by
  rw [meanings, runs, List.splitBy_append h, List.map_append]
  rfl

theorem meanings_of_isLexeme (h : IsLexeme run) : meanings run = [ofRun run] := by
  obtain ⟨ne_nil, chain⟩ := isLexeme_iff.1 h
  rw [meanings, runs, List.splitBy_of_isChain ne_nil chain]
  rfl

theorem meanings_symbol_cons (h : IsSymbol c) (v : List Char) :
    meanings (c :: v) = ofSymbol c :: meanings v := by
  have hjoined : ∀ x ∈ [c].getLast?, ∀ y ∈ v.head?, joined x y = false := by
    intro x hx y _
    cases hx
    exact (joined_of_isSymbol h y).1
  have happend := meanings_append hjoined
  rwa [meanings_of_isLexeme (.symbol h), ofRun_of_isSymbol h] at happend

/-- **A symbol is a lexeme by itself.** -/
theorem meanings_append_symbol (u : List Char) (h : IsSymbol c) (v : List Char) :
    meanings (u ++ c :: v) = meanings u ++ ofSymbol c :: meanings v := by
  rw [meanings_append, meanings_symbol_cons h]
  intro x _ y hy
  cases hy
  exact (joined_of_isSymbol h x).2

/-- **A numeral stays one lexeme** where no digit or point follows it. -/
theorem meanings_numeral_append (h : Numeral.WellFormed run)
    (hnext : ∀ d ∈ v.head?, Numeral.isNumeralChar d = false) :
    meanings (run ++ v) = token (.number (Numeral.value run)) :: meanings v := by
  have hall : AllNumeral run := fun c hc => isNumeralChar_iff.1 (h.isNumeralChar c hc)
  rw [meanings_append, meanings_of_isLexeme (.numeral h.ne_nil hall), ofRun_of_wellFormed h]
  · rfl
  · intro x hx y hy
    have hblank := isBlank_of_isNumeralChar (h.isNumeralChar x (List.mem_of_getLast? hx))
    simp [joined, hblank, hnext y hy]

/-- A lexeme with a digit or a point in it is a number, or bad. -/
theorem ofRun_of_mem (h : IsLexeme run) (hc : c ∈ run) (hnumeral : Numeral.isNumeralChar c = true) :
    (∃ x, ofRun run = token (.number x)) ∨ ∃ cause, ofRun run = bad cause := by
  rw [ofRun_of_allNumeral (isLexeme_iff.1 h).1 (h.allNumeral hc hnumeral), ofNumeral]
  split
  · exact .inl ⟨_, rfl⟩
  · exact .inr ⟨_, rfl⟩

/-- Without bad lexemes a text that ends in a digit or a point ends in a
number. -/
theorem exists_kinds_eq_concat (hc : u.getLast? = some c)
    (hnumeral : Numeral.isNumeralChar c = true) (hclean : causes u = []) :
    ∃ ks x, kinds u = ks ++ [.number x] := by
  have hne : u ≠ [] := by
    rintro rfl
    cases hc
  have hruns : runs u ≠ [] := List.splitBy_ne_nil.2 hne
  have hlexeme := isLexeme_of_mem_runs (List.getLast_mem hruns)
  have hmem : c ∈ (runs u).getLast hruns := by
    have hlast := List.getLast_getLast_splitBy joined hne
    rw [List.getLast?_eq_some_getLast hne] at hc
    rw [← Option.some.inj hc, ← hlast]
    exact List.getLast_mem _
  have hsplit : meanings u =
      (runs u).dropLast.map ofRun ++ [ofRun ((runs u).getLast hruns)] := by
    rw [meanings, ← List.map_singleton, ← List.map_append, List.dropLast_append_getLast]
  rcases ofRun_of_mem hlexeme hmem hnumeral with ⟨x, hx⟩ | ⟨cause, hbad⟩
  · refine ⟨((runs u).dropLast.map ofRun).filterMap kind?, x, ?_⟩
    rw [kinds, hsplit, hx, List.filterMap_append]
    rfl
  · rw [causes, hsplit, hbad, List.filterMap_append] at hclean
    simp [cause?] at hclean

/-- Without bad lexemes a text that begins with a digit or a point begins
with a number. -/
theorem exists_kinds_eq_cons (hc : u.head? = some c)
    (hnumeral : Numeral.isNumeralChar c = true) (hclean : causes u = []) :
    ∃ x ks, kinds u = .number x :: ks := by
  have hne : u ≠ [] := by
    rintro rfl
    cases hc
  have hruns : runs u ≠ [] := List.splitBy_ne_nil.2 hne
  have hlexeme := isLexeme_of_mem_runs (List.head_mem hruns)
  have hmem : c ∈ (runs u).head hruns := by
    have hhead := List.head_head_splitBy joined hne
    rw [List.head?_eq_some_head hne] at hc
    rw [← Option.some.inj hc, ← hhead]
    exact List.head_mem _
  have hsplit : meanings u = ofRun ((runs u).head hruns) :: (runs u).tail.map ofRun := by
    rw [meanings, ← List.map_cons, List.cons_head_tail]
  rcases ofRun_of_mem hlexeme hmem hnumeral with ⟨x, hx⟩ | ⟨cause, hbad⟩
  · refine ⟨x, ((runs u).tail.map ofRun).filterMap kind?, ?_⟩
    rw [kinds, hsplit, hx]
    rfl
  · rw [causes, hsplit, hbad] at hclean
    simp [cause?] at hclean

end Lexeme

theorem Lexeme.ne_end_of_mem_kinds {text : List Char} {kind : TokenKind}
    (h : kind ∈ kinds text) : kind ≠ .endOfInput := by
  rintro rfl
  obtain ⟨meaning, hmem, hkind⟩ := List.mem_filterMap.1 h
  obtain ⟨run, -, rfl⟩ := List.mem_map.1 hmem
  exact kind?_ofRun_ne_end run hkind

/-! ## Scans without faults -/

namespace Scan

theorem faults_eq_nil_iff (text : List Char) :
    (ofText text).faults = [] ↔ Lexeme.causes text = [] := by
  have hcauses : Lexeme.causes text =
      ((placed .origin (Lexeme.runs text)).filterMap Placed.fault?).map Fault.cause := by
    rw [map_cause_filterMap, map_meaning_placed]
    rfl
  rw [faults_ofText, hcauses, List.take_eq_nil_iff, List.map_eq_nil_iff]
  simp [maxFaults]

/-- The tokens of a text without faults are those that its lexemes are, and
then the end. -/
theorem exists_tokens_eq_placed {text : List Char} (h : Lexeme.causes text = []) :
    ∃ stop, (ofText text).tokens =
      (placed .origin (Lexeme.runs text)).filterMap Placed.token? ++
        [⟨.endOfInput, .point stop⟩] := by
  obtain ⟨u, v, hruns, hscan, -, hclean⟩ := exists_lexemes_ofText text
  rw [hclean ((faults_eq_nil_iff text).2 h), List.append_nil] at hruns
  rw [hscan, hruns]
  exact ⟨_, rfl⟩

/-- **The tokens of a text without faults** are those that its lexemes mean,
and then the end. -/
theorem map_kind_tokens {text : List Char} (h : Lexeme.causes text = []) :
    (ofText text).tokens.map Token.kind = Lexeme.kinds text ++ [.endOfInput] := by
  obtain ⟨stop, htokens⟩ := exists_tokens_eq_placed h
  rw [htokens, List.map_append, map_kind_filterMap, map_meaning_placed]
  rfl

theorem exists_tokens_of_clean {text : List Char} (h : Lexeme.causes text = []) :
    ∃ w t, (ofText text).tokens = w ++ [t] ∧ w.map Token.kind = Lexeme.kinds text ∧
      t.kind = .endOfInput ∧ ∀ t ∈ w, t.kind ≠ .endOfInput := by
  obtain ⟨w, rest, htokens, hkinds, hrest⟩ := List.map_eq_append_iff.1 (map_kind_tokens h)
  obtain ⟨t, rfl, ht⟩ := List.map_eq_singleton_iff.1 hrest
  refine ⟨w, t, htokens, hkinds, ht, fun t ht => ?_⟩
  exact Lexeme.ne_end_of_mem_kinds (hkinds ▸ List.mem_map_of_mem ht)

end Scan

end Abacus
