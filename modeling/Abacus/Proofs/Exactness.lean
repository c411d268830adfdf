import Abacus.Proofs.ExactArithmetic
import Abacus.Proofs.Meanings
import Abacus.Proofs.StepBudget

/-!
# Exactness

The exact value of an expression: the numerals of the text are decimal
numbers, and the operators are those of the rational numbers. Where every
value on the way to it is representable, the evaluation of the tree keeps in
step with it, and the exact value is what comes out.
-/

namespace Abacus

namespace TokenKind

/-- The number that a token is. -/
def number? : TokenKind → Option Double
  | number x => some x
  | _ => none

theorem number?_of_isSign {k : TokenKind} (h : k.isSign = true) : k.number? = none := by
  cases k <;> first | rfl | cases h

theorem number?_of_sumOp? {k : TokenKind} {op : BinaryOp} (h : k.sumOp? = some op) :
    k.number? = none := by
  cases k <;> first | rfl | cases h

theorem number?_of_productOp? {k : TokenKind} {op : BinaryOp} (h : k.productOp? = some op) :
    k.number? = none := by
  cases k <;> first | rfl | cases h

end TokenKind

/-- The number that a token is. -/
def Token.number? (t : Token) : Option Double :=
  t.kind.number?

/-- The exact value of a numeral. -/
def Numeral.exact (run : List Char) : ℚ :=
  (Numeral.decimal run).toRat

/-- The numerals of a text, in order. -/
def Lexeme.numerals (text : List Char) : List (List Char) :=
  (runs text).filter Numeral.isNumeral

namespace Expr

/-- The numbers of a tree, from left to right. -/
def numbers : Expr → List Double
  | literal _ x => [x]
  | negate _ operand => operand.numbers
  | group _ inner => inner.numbers
  | binary _ _ left right => left.numbers ++ right.numbers

/-- The exact value `q` of a tree whose numbers stand, from left to right,
for `qs`. No divisor is zero, and `P` holds of the exact value of each part
of the tree. -/
inductive HasExact (P : ℚ → Prop) : Expr → List ℚ → ℚ → Prop
  | literal (s : Span) (x : Double) {q : ℚ} (holds : P q) : HasExact P (.literal s x) [q] q
  | negate (s : Span) {operand : Expr} {qs : List ℚ} {q : ℚ}
      (exact : HasExact P operand qs q) (holds : P (-q)) :
      HasExact P (.negate s operand) qs (-q)
  | group (s : Span) {inner : Expr} {qs : List ℚ} {q : ℚ} (exact : HasExact P inner qs q) :
      HasExact P (.group s inner) qs q
  | binary (s : Span) (op : BinaryOp) {left right : Expr} {ps qs : List ℚ} {p q : ℚ}
      (left_exact : HasExact P left ps p) (right_exact : HasExact P right qs q)
      (divisor : op = .div → q ≠ 0) (holds : P (op.exact p q)) :
      HasExact P (.binary s op left right) (ps ++ qs) (op.exact p q)

variable {P P' : ℚ → Prop} {e : Expr} {qs : List ℚ} {q : ℚ} {limits : Limits}
  {text : List Char}

/-! ## The numbers of a tree -/

@[simp] theorem numbers_withSpan (s : Span) (e : Expr) : (e.withSpan s).numbers = e.numbers := by
  cases e <;> rfl

theorem filterMap_number?_signs {signs : List Token} (run : ∀ t ∈ signs, t.kind.isSign = true) :
    signs.filterMap Token.number? = [] := by
  rw [List.filterMap_eq_nil_iff]
  intro t ht
  exact TokenKind.number?_of_isSign (run t ht)

theorem filterMap_number?_operator {t : Token} (h : t.number? = none) (u v : List Token) :
    (u ++ t :: v).filterMap Token.number? =
      u.filterMap Token.number? ++ v.filterMap Token.number? := by
  rw [List.filterMap_append, List.filterMap_cons_none h]

/-- **The numbers of a tree are those of its tokens**, in order. -/
theorem Derives.numbers_eq {phrase : Phrase} {w : List Token} (h : Derives phrase w e) :
    e.numbers = w.filterMap Token.number? := by
  induction h with
  | number => rfl
  | group s s' _ ih =>
    rw [numbers, ih, List.filterMap_append]
    exact (List.append_nil _).symm
  | unsigned _ ih => exact ih
  | kept run _ _ ih =>
    rw [numbers_withSpan, ih, List.filterMap_append, filterMap_number?_signs run]
    rfl
  | negated run _ _ ih =>
    rw [numbers, ih, List.filterMap_append, filterMap_number?_signs run]
    rfl
  | factor _ ih => exact ih
  | product _ operator _ ihl ihr =>
    have hnone : Token.number? _ = none := TokenKind.number?_of_productOp? operator
    rw [numbers, ihl, ihr, filterMap_number?_operator hnone]
  | term _ ih => exact ih
  | sum _ operator _ ihl ihr =>
    have hnone : Token.number? _ = none := TokenKind.number?_of_sumOp? operator
    rw [numbers, ihl, ihr, filterMap_number?_operator hnone]

/-- A lexeme is a number exactly when it is a numeral. -/
theorem number?_ofRun {run : List Char} (h : Lexeme.IsLexeme run) :
    (Lexeme.ofRun run).kind?.bind TokenKind.number? =
      if Numeral.isNumeral run = true then some (Numeral.value run) else none := by
  by_cases hnumeral : Numeral.isNumeral run = true
  · rw [if_pos hnumeral, Lexeme.ofRun_of_wellFormed ((Numeral.isNumeral_iff run).1 hnumeral)]
    rfl
  · rw [if_neg hnumeral]
    have hmeans := (Lexeme.means_iff h).2 rfl
    generalize Lexeme.ofRun run = meaning at hmeans
    cases hmeans with
    | number hformed => exact absurd ((Numeral.isNumeral_iff run).2 hformed) hnumeral
    | symbol hsymbol =>
      simp only [Lexeme.symbols, List.mem_cons, Prod.mk.injEq, List.not_mem_nil, or_false]
        at hsymbol
      rcases hsymbol with ⟨-, rfl⟩ | ⟨-, rfl⟩ | ⟨-, rfl⟩ | ⟨-, rfl⟩ | ⟨-, rfl⟩ | ⟨-, rfl⟩ <;> rfl
    | _ => rfl

theorem filterMap_number?_kinds (text : List Char) :
    (Lexeme.kinds text).filterMap TokenKind.number? =
      (Lexeme.numerals text).map Numeral.value := by
  rw [Lexeme.kinds, Lexeme.meanings, Lexeme.numerals, List.filterMap_map, List.filterMap_filterMap,
    ← List.filterMap_eq_map, List.filterMap_filter]
  refine List.filterMap_congr fun run hrun => ?_
  exact number?_ofRun (Lexeme.isLexeme_of_mem_runs hrun)

/-- The numbers of the tree of a text are those of its numerals. -/
theorem numbers_of_scan (hclean : (Scan.ofText text).faults = [])
    (htree : ofTokens limits (Scan.ofText text).tokens = .ok e) :
    e.numbers = (Lexeme.numerals text).map Numeral.value := by
  obtain ⟨w, t, htokens, hkinds, -, -⟩ :=
    Scan.exists_tokens_of_clean ((Scan.faults_eq_nil_iff text).1 hclean)
  have hderives := derives_of_scan htree
  rw [htokens, List.dropLast_concat] at hderives
  rw [hderives.numbers_eq, ← filterMap_number?_kinds, ← hkinds, List.filterMap_map]
  rfl

/-! ## Exact values -/

theorem HasExact.holds (h : HasExact P e qs q) : P q := by
  induction h with
  | literal _ _ holds => exact holds
  | negate _ _ holds => exact holds
  | group _ _ ih => exact ih
  | binary _ _ _ _ _ holds => exact holds

theorem HasExact.mono (himp : ∀ q, P q → P' q) (h : HasExact P e qs q) : HasExact P' e qs q := by
  induction h with
  | literal s x holds => exact .literal s x (himp _ holds)
  | negate s _ holds ih => exact .negate s ih (himp _ holds)
  | group s _ ih => exact .group s ih
  | binary s op _ _ divisor holds ihl ihr => exact .binary s op ihl ihr divisor (himp _ holds)

theorem HasExact.length_eq (h : HasExact P e qs q) : e.numbers.length = qs.length := by
  induction h with
  | literal => rfl
  | negate _ _ _ ih => exact ih
  | group _ _ ih => exact ih
  | binary _ _ _ _ _ _ ihl ihr => rw [numbers, List.length_append, List.length_append, ihl, ihr]

/-- **The two evaluations keep in step** where the numbers of the tree are
exact and the values on the way representable. -/
theorem HasExact.exists_value (h : HasExact Double.Representable e qs q)
    (hnumbers : List.Forall₂ (fun x p => Double.Representable p → x.toRat? = some p)
      e.numbers qs) :
    ∃ x, value e = .ok x ∧ x.toRat? = some q := by
  induction h with
  | literal s x holds =>
    obtain ⟨hx, -⟩ := List.forall₂_cons.1 hnumbers
    exact ⟨x, value_literal_eq_ok.2 ⟨Double.isFinite_of_toRat? (hx holds), rfl⟩, hx holds⟩
  | negate s _ holds ih =>
    obtain ⟨x, hvalue, hx⟩ := ih hnumbers
    exact ⟨x.neg, value_negate_eq_ok.2 ⟨x, hvalue, rfl⟩, Double.toRat?_neg hx⟩
  | group s _ ih => exact ih hnumbers
  | @binary s op left right ps qs p q left_exact right_exact divisor holds ihl ihr =>
    have hleft := List.forall₂_take_append _ _ _ hnumbers
    have hright := List.forall₂_drop_append _ _ _ hnumbers
    rw [numbers, List.take_left' left_exact.length_eq] at hleft
    rw [numbers, List.drop_left' left_exact.length_eq] at hright
    obtain ⟨x, hx, hxp⟩ := ihl hleft
    obtain ⟨y, hy, hyq⟩ := ihr hright
    obtain ⟨z, hz, hzr⟩ := BinaryOp.exists_apply_of_representable hxp hyq divisor holds
    exact ⟨z, value_binary_eq_ok.2 ⟨x, y, hx, hy, hz⟩, hzr⟩

/-- The numerals of a text are exact where they are representable. -/
theorem forall₂_numbers (hclean : (Scan.ofText text).faults = [])
    (htree : ofTokens limits (Scan.ofText text).tokens = .ok e) :
    List.Forall₂ (fun x p => Double.Representable p → x.toRat? = some p)
      e.numbers ((Lexeme.numerals text).map Numeral.exact) := by
  rw [numbers_of_scan hclean htree, List.forall₂_map_left_iff, List.forall₂_map_right_iff,
    List.forall₂_same]
  intro run _ hrepresentable
  exact Double.toRat?_ofDecimal hrepresentable

end Expr

/-- A text whose values are all representable has its exact value. -/
theorem exists_evaluate_of_representable {limits : Limits} (habsent : limits.stepLimit? = none)
    {text : String} {e : Expr} {q : ℚ} (hclean : (Scan.ofText text.toList).faults = [])
    (htree : Expr.ofTokens limits (Scan.ofText text.toList).tokens = .ok e)
    (h : e.HasExact Double.Representable ((Lexeme.numerals text.toList).map Numeral.exact) q) :
    ∃ v, evaluate text limits = .ok v ∧ v.IsExactly q := by
  obtain ⟨x, hvalue, hx⟩ := h.exists_value (Expr.forall₂_numbers hclean htree)
  refine ⟨.ofDouble x, ?_, Number.isExactly_ofDouble hx⟩
  refine evaluate_of_ok (calculate_eq_ok_iff.2 ⟨hclean, e, x, htree, hvalue, ?_, rfl⟩)
  intro n hn
  rw [habsent] at hn
  cases hn

/-- **Exact where it is possible.** Take a text that the scan finds nothing
wrong with and that has a tree within the limits, without an explicit limit
on steps. Let `q` be its exact value, no divisor on the way being zero. If
the exact values of all numerals and all parts of the tree are doubles, then
the text evaluates, and to `q`: to a whole number if `q` is one of 64 bits
with a sign, else to the double that is `q`. And if they are whole numbers
from `-2 ^ 53` to `2 ^ 53`, the result is the whole number `q`. -/
theorem evaluate_exact {limits : Limits} (habsent : limits.stepLimit? = none) {text : String}
    {e : Expr} (hclean : (Scan.ofText text.toList).faults = [])
    (htree : Expr.ofTokens limits (Scan.ofText text.toList).tokens = .ok e) (q : ℚ) :
    let numerals := (Lexeme.numerals text.toList).map Numeral.exact
    (e.HasExact Double.Representable numerals q →
      ∃ v, evaluate text limits = .ok v ∧ v.IsExactly q) ∧
    (e.HasExact (fun p => ∃ n : ℤ, p = n ∧ -2 ^ 53 ≤ n ∧ n ≤ 2 ^ 53) numerals q →
      ∃ i : Int64, evaluate text limits = .ok (.integer i) ∧ q = i.toInt) := by
  intro numerals
  refine ⟨fun h => exists_evaluate_of_representable habsent hclean htree h, fun h => ?_⟩
  obtain ⟨n, rfl, hlow, hhigh⟩ := h.holds
  have hexact : e.HasExact Double.Representable numerals n := by
    refine h.mono fun p hp => ?_
    obtain ⟨m, rfl, hlow, hhigh⟩ := hp
    exact Double.representable_of_natAbs_le (by omega)
  obtain ⟨v, hv, hvn⟩ := exists_evaluate_of_representable habsent hclean htree hexact
  obtain ⟨i, rfl, hi⟩ := hvn.whole n rfl (by omega) (by omega)
  exact ⟨i, hv, by rw [hi]⟩

/-- `(0.5+1)*4` is 6, by way of parts that are no whole numbers. -/
theorem evaluate_exact_product :
    let text := "(0.5+1)*4"
    let on := fun first last => (⟨⟨1, first⟩, ⟨1, last⟩⟩ : Span)
    let sum := Expr.binary (on 2 6) .add (.literal (on 2 4) (Numeral.value ['0', '.', '5']))
      (.literal (on 6 6) (Numeral.value ['1']))
    let e := Expr.binary (on 1 9) .mul (.group (on 1 7) sum)
      (.literal (on 9 9) (Numeral.value ['4']))
    (Scan.ofText text.toList).faults = [] ∧
      Expr.ofTokens .standard (Scan.ofText text.toList).tokens = .ok e ∧
      e.HasExact Double.Representable ((Lexeme.numerals text.toList).map Numeral.exact) 6 ∧
      ∃ v, evaluate text .standard = .ok v ∧ v.IsExactly 6 := by
  intro text on sum e
  have hclean : (Scan.ofText text.toList).faults = [] := by decide
  have htree : Expr.ofTokens .standard (Scan.ofText text.toList).tokens = .ok e := by
    decide +kernel
  have hnumerals : (Lexeme.numerals text.toList).map Numeral.exact = [1 / 2] ++ [1] ++ [4] := by
    have hruns : Lexeme.numerals text.toList = [['0', '.', '5'], ['1'], ['4']] := by decide
    have hhalf : Numeral.decimal ['0', '.', '5'] = ⟨5, -1⟩ := by decide
    have hone : Numeral.decimal ['1'] = ⟨1, 0⟩ := by decide
    have hfour : Numeral.decimal ['4'] = ⟨4, 0⟩ := by decide
    rw [hruns]
    norm_num [Numeral.exact, hhalf, hone, hfour, Decimal.toRat]
  -- all the values are halves of small whole numbers
  have hhalf : ∀ (q : ℚ) (n : ℤ), q * 2 ^ 1 = n → n.natAbs ≤ 2 ^ 53 → Double.Representable q :=
    fun q n h hn => Double.representable_of_mul_two_pow (by decide) h hn
  have hexact : e.HasExact Double.Representable ([1 / 2] ++ [1] ++ [4]) ((1 / 2 + 1) * 4) := by
    refine .binary _ .mul (.group _ (.binary _ .add (.literal _ _ ?_) (.literal _ _ ?_) ?_ ?_))
      (.literal _ _ ?_) ?_ ?_
    · exact hhalf _ 1 (by norm_num) (by decide)
    · exact hhalf _ 2 (by norm_num) (by decide)
    · exact fun hdiv => by cases hdiv
    · exact hhalf _ 3 (by norm_num [BinaryOp.exact]) (by decide)
    · exact hhalf _ 8 (by norm_num) (by decide)
    · exact fun hdiv => by cases hdiv
    · exact hhalf _ 12 (by norm_num [BinaryOp.exact]) (by decide)
  rw [← hnumerals, show (1 / 2 + 1) * 4 = (6 : ℚ) by norm_num] at hexact
  exact ⟨hclean, htree, hexact, (evaluate_exact rfl hclean htree 6).1 hexact⟩

end Abacus
