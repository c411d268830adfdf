import Abacus.Lexeme
import Abacus.Proofs.Numerals
import Mathlib.Data.List.Forall2
import Mathlib.Data.List.SplitBy

/-!
# Lexemes

A text is cut into lexemes in one way only, and each lexeme has one
meaning. Both are said here without the functions that find them: a cut is
a list of lexemes that make up the text, no two neighbours of which could
be one longer run, and the rules `Means` give each lexeme its meaning.
-/

namespace Abacus.Lexeme

variable {text run u v : List Char} {runs : List (List Char)} {meaning : Lexeme}

/-! ## The cut -/

/-- White space and nothing else. -/
def AllBlank (run : List Char) : Prop :=
  ∀ c ∈ run, Text.isBlank c = true

/-- Digits and points and nothing else. -/
def AllNumeral (run : List Char) : Prop :=
  ∀ c ∈ run, c.isDigit = true ∨ c = '.'

/-- A character that is neither white space nor a digit nor a point. -/
structure IsSymbol (c : Char) : Prop where
  not_blank : Text.isBlank c = false
  not_digit : c.isDigit = false
  ne_point : c ≠ '.'

/-- What one lexeme may be: a run of white space, a run of digits and
points, or any other character by itself. -/
inductive IsLexeme : List Char → Prop
  | blank {run : List Char} (ne_nil : run ≠ []) (h : AllBlank run) : IsLexeme run
  | numeral {run : List Char} (ne_nil : run ≠ []) (h : AllNumeral run) : IsLexeme run
  | symbol {c : Char} (h : IsSymbol c) : IsLexeme [c]

/-- Two neighbours that are not parts of one longer run. -/
def Apart (u v : List Char) : Prop :=
  ¬ (AllBlank u ∧ AllBlank v) ∧ ¬ (AllNumeral u ∧ AllNumeral v)

/-- The text is cut into lexemes whose runs are as long as they can be. -/
structure IsCut (text : List Char) (runs : List (List Char)) : Prop where
  flatten_eq : runs.flatten = text
  lexemes : ∀ run ∈ runs, IsLexeme run
  maximal : runs.IsChain Apart

theorem isBlank_of_isNumeralChar {c : Char} (h : Numeral.isNumeralChar c = true) :
    Text.isBlank c = false := by
  -- digits and the point lie in a range without white space
  have hrange : 46 ≤ c.toNat ∧ c.toNat ≤ 57 := by
    rcases Bool.or_eq_true_iff.1 h with hdigit | hpoint
    · have hvalue : 48 ≤ c.toNat ∧ c.toNat ≤ 57 := Char.isDigit_iff_toNat.1 hdigit
      omega
    · rw [beq_iff_eq.1 hpoint]
      decide
  simp only [Text.isBlank, Text.inRanges, Text.blankRanges, List.any_cons, List.any_nil,
    Bool.or_false, Bool.or_eq_false_iff, Bool.and_eq_false_iff, decide_eq_false_iff_not]
  omega

theorem isNumeralChar_iff {c : Char} :
    Numeral.isNumeralChar c = true ↔ c.isDigit = true ∨ c = '.' := by
  simp [Numeral.isNumeralChar]

theorem isSymbol_iff {c : Char} :
    IsSymbol c ↔ Text.isBlank c = false ∧ Numeral.isNumeralChar c = false := by
  have hnumeral : Numeral.isNumeralChar c = false ↔ c.isDigit = false ∧ c ≠ '.' := by
    simp [Numeral.isNumeralChar]
  rw [hnumeral]
  exact ⟨fun h => ⟨h.not_blank, h.not_digit, h.ne_point⟩, fun h => ⟨h.1, h.2.1, h.2.2⟩⟩

theorem joined_iff {a b : Char} :
    joined a b = true ↔ (Text.isBlank a = true ∧ Text.isBlank b = true) ∨
      (Numeral.isNumeralChar a = true ∧ Numeral.isNumeralChar b = true) := by
  simp [joined]

theorem isLexeme_singleton (c : Char) : IsLexeme [c] := by
  by_cases hblank : Text.isBlank c = true
  · exact .blank (by simp) (by simpa [AllBlank] using hblank)
  · by_cases hnumeral : Numeral.isNumeralChar c = true
    · exact .numeral (by simp) (by simpa [AllNumeral] using isNumeralChar_iff.1 hnumeral)
    · exact .symbol (isSymbol_iff.2 ⟨by simpa using hblank, by simpa using hnumeral⟩)

/-- The characters of a lexeme are of the class of any of them. -/
theorem IsLexeme.allBlank {c : Char} (h : IsLexeme run) (hc : c ∈ run)
    (hblank : Text.isBlank c = true) : AllBlank run := by
  cases h with
  | blank _ h => exact h
  | numeral _ h =>
    rw [isBlank_of_isNumeralChar (isNumeralChar_iff.2 (h c hc))] at hblank
    cases hblank
  | symbol h =>
    rw [List.mem_singleton.1 hc, h.not_blank] at hblank
    cases hblank

theorem IsLexeme.allNumeral {c : Char} (h : IsLexeme run) (hc : c ∈ run)
    (hnumeral : Numeral.isNumeralChar c = true) : AllNumeral run := by
  cases h with
  | blank _ h =>
    have hblank := h c hc
    rw [isBlank_of_isNumeralChar hnumeral] at hblank
    cases hblank
  | numeral _ h => exact h
  | symbol h =>
    rw [List.mem_singleton.1 hc, (isSymbol_iff.1 h).2] at hnumeral
    cases hnumeral

/-- The lexemes are the runs in which neighbours belong together. -/
theorem isLexeme_iff : IsLexeme run ↔ run ≠ [] ∧ run.IsChain (joined · ·) := by
  constructor
  · intro h
    cases h with
    | blank ne_nil h =>
      refine ⟨ne_nil, (List.pairwise_of_forall_mem_list fun a ha b hb => ?_).isChain⟩
      exact joined_iff.2 (.inl ⟨h a ha, h b hb⟩)
    | numeral ne_nil h =>
      refine ⟨ne_nil, (List.pairwise_of_forall_mem_list fun a ha b hb => ?_).isChain⟩
      exact joined_iff.2 (.inr ⟨isNumeralChar_iff.2 (h a ha), isNumeralChar_iff.2 (h b hb)⟩)
    | symbol => exact ⟨by simp, by simp⟩
  · rintro ⟨ne_nil, chain⟩
    induction run with
    | nil => exact absurd rfl ne_nil
    | cons c cs ih => cases cs with
      | nil => exact isLexeme_singleton c
      | cons d ds =>
        rw [List.isChain_cons_cons, joined_iff] at chain
        obtain ⟨hjoined, chain⟩ := chain
        -- the class of `c` is that of `d`, and so that of the rest
        have hrest := ih (by simp) chain
        rcases hjoined with ⟨hc, hd⟩ | ⟨hc, hd⟩
        · have hall := hrest.allBlank List.mem_cons_self hd
          exact .blank (by simp) (List.forall_mem_cons.2 ⟨hc, hall⟩)
        · have hall := hrest.allNumeral List.mem_cons_self hd
          exact .numeral (by simp) (List.forall_mem_cons.2 ⟨isNumeralChar_iff.1 hc, hall⟩)

/-- Two lexemes are apart exactly where their runs meet. -/
theorem apart_iff (hu : IsLexeme u) (hv : IsLexeme v) :
    Apart u v ↔ ∃ hu hv, joined (u.getLast hu) (v.head hv) = false := by
  have hune := (isLexeme_iff.1 hu).1
  have hvne := (isLexeme_iff.1 hv).1
  have hlast := List.getLast_mem hune
  have hhead := List.head_mem hvne
  constructor
  · intro hapart
    refine ⟨hune, hvne, Bool.eq_false_iff.2 fun hjoined => ?_⟩
    rcases joined_iff.1 hjoined with ⟨hl, hr⟩ | ⟨hl, hr⟩
    · exact hapart.1 ⟨hu.allBlank hlast hl, hv.allBlank hhead hr⟩
    · exact hapart.2 ⟨hu.allNumeral hlast hl, hv.allNumeral hhead hr⟩
  · rintro ⟨_, _, hjoined⟩
    refine ⟨fun ⟨hl, hr⟩ => ?_, fun ⟨hl, hr⟩ => ?_⟩
    · rw [joined_iff.2 (.inl ⟨hl _ hlast, hr _ hhead⟩)] at hjoined
      cases hjoined
    · rw [joined_iff.2 (.inr ⟨isNumeralChar_iff.2 (hl _ hlast), isNumeralChar_iff.2 (hr _ hhead)⟩)]
        at hjoined
      cases hjoined

/-- **There is one cut.** -/
theorem isCut_iff : IsCut text runs ↔ runs = Lexeme.runs text := by
  rw [eq_comm, Lexeme.runs, List.splitBy_eq_iff]
  constructor
  · intro h
    refine ⟨h.flatten_eq.symm, fun hnil => (isLexeme_iff.1 (h.lexemes _ hnil)).1 rfl,
      fun run hrun => (isLexeme_iff.1 (h.lexemes run hrun)).2, ?_⟩
    exact h.maximal.imp_of_mem_imp fun u v hu hv => (apart_iff (h.lexemes u hu) (h.lexemes v hv)).1
  · rintro ⟨hflatten, hnil, hchain, hmaximal⟩
    have hlexemes : ∀ run ∈ runs, IsLexeme run := fun run hrun =>
      isLexeme_iff.2 ⟨fun heq => hnil (heq ▸ hrun), hchain run hrun⟩
    refine ⟨hflatten.symm, hlexemes, ?_⟩
    exact hmaximal.imp_of_mem_imp fun u v hu hv => (apart_iff (hlexemes u hu) (hlexemes v hv)).2

theorem isLexeme_of_mem_runs (h : run ∈ Lexeme.runs text) : IsLexeme run :=
  (isCut_iff.2 rfl).lexemes run h

/-! ## Meanings -/

/-- The characters that are tokens by themselves. -/
def symbols : List (Char × TokenKind) :=
  [('+', .plus), ('-', .minus), ('*', .star), ('/', .slash), ('(', .leftParen),
   (')', .rightParen)]

/-- The rules that give a lexeme its meaning. -/
inductive Means : List Char → Lexeme → Prop
  | blank {run : List Char} (ne_nil : run ≠ []) (h : AllBlank run) : Means run blank
  | number {run : List Char} (h : Numeral.WellFormed run) :
      Means run (token (.number (Numeral.value run)))
  | malformed {run : List Char} (ne_nil : run ≠ []) (h : AllNumeral run)
      (h' : ¬ Numeral.WellFormed run) : Means run (bad (.malformedNumeral run))
  | symbol {c : Char} {kind : TokenKind} (h : (c, kind) ∈ symbols) : Means [c] (token kind)
  | unexpected {c : Char} (h : IsSymbol c) (h' : ∀ kind, (c, kind) ∉ symbols) :
      Means [c] (bad (.unexpectedCharacter c))

theorem ofRun_of_allBlank (ne_nil : run ≠ []) (h : AllBlank run) : ofRun run = blank := by
  obtain ⟨c, cs, rfl⟩ := List.exists_cons_of_ne_nil ne_nil
  rw [ofRun, if_pos (h c List.mem_cons_self)]

theorem ofRun_of_allNumeral (ne_nil : run ≠ []) (h : AllNumeral run) :
    ofRun run = ofNumeral run := by
  obtain ⟨c, cs, rfl⟩ := List.exists_cons_of_ne_nil ne_nil
  have hc := isNumeralChar_iff.2 (h c List.mem_cons_self)
  rw [ofRun, if_neg (by simp [isBlank_of_isNumeralChar hc]), if_pos hc]

theorem ofRun_of_isSymbol {c : Char} (h : IsSymbol c) : ofRun [c] = ofSymbol c := by
  obtain ⟨hblank, hnumeral⟩ := isSymbol_iff.1 h
  rw [ofRun, if_neg (by simp [hblank]), if_neg (by simp [hnumeral])]

theorem ofRun_of_wellFormed (h : Numeral.WellFormed run) :
    ofRun run = token (.number (Numeral.value run)) := by
  have hall : AllNumeral run := fun c hc => isNumeralChar_iff.1 (h.isNumeralChar c hc)
  rw [ofRun_of_allNumeral h.ne_nil hall, ofNumeral, if_pos ((Numeral.isNumeral_iff run).2 h)]

/-- The rules find what the first character tells. -/
theorem Means.ofRun_eq (h : Means run meaning) : ofRun run = meaning := by
  cases h with
  | blank ne_nil h => exact ofRun_of_allBlank ne_nil h
  | number h => exact ofRun_of_wellFormed h
  | malformed ne_nil h h' =>
    have hbad : ¬ Numeral.isNumeral run = true := mt (Numeral.isNumeral_iff run).1 h'
    rw [ofRun_of_allNumeral ne_nil h, ofNumeral, if_neg hbad]
  | symbol h =>
    simp only [symbols, List.mem_cons, Prod.mk.injEq, List.not_mem_nil, or_false] at h
    rcases h with ⟨rfl, rfl⟩ | ⟨rfl, rfl⟩ | ⟨rfl, rfl⟩ | ⟨rfl, rfl⟩ | ⟨rfl, rfl⟩ | ⟨rfl, rfl⟩ <;>
      rfl
  | @unexpected c h h' =>
    rw [ofRun_of_isSymbol h]
    unfold ofSymbol
    split
    · exact absurd (by decide) (h' .plus)
    · exact absurd (by decide) (h' .minus)
    · exact absurd (by decide) (h' .star)
    · exact absurd (by decide) (h' .slash)
    · exact absurd (by decide) (h' .leftParen)
    · exact absurd (by decide) (h' .rightParen)
    · rfl

theorem IsSymbol.means {c : Char} (h : IsSymbol c) : Means [c] (ofSymbol c) := by
  unfold ofSymbol
  split
  case h_7 =>
    refine .unexpected h fun kind hkind => ?_
    simp_all [symbols]
  all_goals exact .symbol (by decide)

/-- **A lexeme has one meaning.** -/
theorem means_iff (h : IsLexeme run) : Means run meaning ↔ ofRun run = meaning := by
  refine ⟨Means.ofRun_eq, ?_⟩
  rintro rfl
  cases h with
  | blank ne_nil h =>
    rw [ofRun_of_allBlank ne_nil h]
    exact .blank ne_nil h
  | numeral ne_nil h =>
    rw [ofRun_of_allNumeral ne_nil h, ofNumeral]
    split
    · exact .number ((Numeral.isNumeral_iff run).1 ‹_›)
    · exact .malformed ne_nil h fun hgood => ‹¬ _› ((Numeral.isNumeral_iff run).2 hgood)
  | symbol h =>
    rw [ofRun_of_isSymbol h]
    exact h.means

/-- A list of lexemes has one list of meanings. -/
theorem forall₂_means_iff {meanings : List Lexeme} (h : ∀ run ∈ runs, IsLexeme run) :
    List.Forall₂ Means runs meanings ↔ meanings = runs.map ofRun := by
  induction runs generalizing meanings with
  | nil => simp
  | cons run runs ih =>
    rw [List.forall_mem_cons] at h
    rw [List.map_cons, List.forall₂_cons_left_iff]
    constructor
    · rintro ⟨meaning, meanings', hmeans, hrest, rfl⟩
      rw [(means_iff h.1).1 hmeans, (ih h.2).1 hrest]
    · rintro rfl
      exact ⟨_, _, (means_iff h.1).2 rfl, (ih h.2).2 rfl, rfl⟩

theorem ofRun_eq_blank_iff (h : IsLexeme run) : ofRun run = blank ↔ AllBlank run := by
  rw [← means_iff h]
  constructor
  · intro hmeans
    cases hmeans
    assumption
  · exact fun hblank => .blank (isLexeme_iff.1 h).1 hblank

/-- A lexeme is white space, or holds none. -/
theorem IsLexeme.not_blank {c : Char} (h : IsLexeme run) (hmeaning : ofRun run ≠ Lexeme.blank)
    (hc : c ∈ run) : Text.isBlank c = false := by
  refine Bool.eq_false_iff.2 fun hblank => hmeaning ?_
  exact (ofRun_eq_blank_iff h).2 (h.allBlank hc hblank)

end Abacus.Lexeme
