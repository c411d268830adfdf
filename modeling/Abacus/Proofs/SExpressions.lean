import Abacus.Proofs.Places
import Abacus.Proofs.ReadBack
import Abacus.Proofs.StepBudget

/-!
# SExpressions

What the s-expression of a tree tells of the tree: all of it but its groups
and its places. There are no spaces or parentheses in the text of a number,
and one of them comes after every operand, so the text shows where each
operand ends; and its beginning shows what kind of node it is.
-/

namespace Abacus

theorem BinaryOp.symbol_injective {op op' : BinaryOp} (h : op.symbol = op'.symbol) :
    op = op' := by
  cases op <;> cases op' <;> first | rfl | cases h

/-- The letter that a negation begins with is no operator. -/
theorem BinaryOp.symbol_ne_n (op : BinaryOp) : op.symbol ≠ 'n' := by
  cases op <;> decide

namespace Expr

variable {e f : Expr} {x y : Double} {op : BinaryOp} {cs rest rest' : List Char}

/-! ## Trees without groups -/

/-- A tree with what is inside its groups in place of them. -/
def ungrouped : Expr → Expr
  | literal span value => literal span value
  | negate span operand => negate span operand.ungrouped
  | group _ inner => inner.ungrouped
  | binary span op left right => binary span op left.ungrouped right.ungrouped

/-- Groups are not written. -/
theorem sexprOnto_ungrouped (e : Expr) (rest : List Char) :
    sexprOnto e.ungrouped rest = sexprOnto e rest := by
  induction e generalizing rest with
  | literal => rfl
  | negate _ _ ih => rw [ungrouped, sexprOnto, sexprOnto, ih]
  | group _ _ ih => exact ih rest
  | binary _ _ _ _ ihl ihr => rw [ungrouped, sexprOnto, sexprOnto, ihr, ihl]

/-- Places are not written. -/
theorem sexprOnto_unplaced (e : Expr) (rest : List Char) :
    sexprOnto e.unplaced rest = sexprOnto e rest := by
  induction e generalizing rest with
  | literal => rfl
  | negate _ _ ih => rw [unplaced, sexprOnto, sexprOnto, ih]
  | group _ _ ih => exact ih rest
  | binary _ _ _ _ ihl ihr => rw [unplaced, sexprOnto, sexprOnto, ihr, ihl]

/-- **Groups do not matter to values**, nor to what goes wrong and where. -/
theorem value_ungrouped (e : Expr) : value e.ungrouped = value e := by
  induction e with
  | literal => rfl
  | negate _ _ ih => rw [ungrouped, value, value, ih]
  | group _ _ ih => exact ih
  | binary _ _ _ _ ihl ihr => rw [ungrouped, value, value, ihl, ihr]

/-! ## The end of a number -/

/-- Whether a character stands between the parts of an s-expression. -/
def isMark (c : Char) : Bool :=
  c == ' ' || c == '(' || c == ')'

/-- Nothing more comes, or a mark comes first. -/
def MarkNext (rest : List Char) : Prop :=
  ∀ c ∈ rest.head?, isMark c = true

theorem isMark_of_mem_toPlain {c : Char} (h : c ∈ x.toPlain) : isMark c = false := by
  rw [Bool.eq_false_iff]
  intro hmark
  simp only [isMark, Bool.or_eq_true, beq_iff_eq] at hmark
  rcases hmark with (rfl | rfl) | rfl <;> exact absurd (Double.mem_toPlain h) (by decide)

theorem span_toPlain (x : Double) (h : MarkNext rest) :
    (x.toPlain ++ rest).span (!isMark ·) = (x.toPlain, rest) := by
  apply span_append
  · intro c hc
    rw [isMark_of_mem_toPlain hc]
    rfl
  · intro c hc
    rw [h c hc]
    rfl

/-- A number and its end are told from the text that begins with it. -/
theorem toPlain_append_inj (h : MarkNext rest) (h' : MarkNext rest')
    (heq : x.toPlain ++ rest = y.toPlain ++ rest') : x = y ∧ rest = rest' := by
  have hleft := span_toPlain x h
  rw [heq, span_toPlain y h', Prod.mk.injEq] at hleft
  exact ⟨(Double.toPlain_injective hleft.1).symm, hleft.2.symm⟩

/-- A number does not begin with a parenthesis. -/
theorem toPlain_append_ne (x : Double) (rest cs : List Char) : x.toPlain ++ rest ≠ '(' :: cs := by
  intro heq
  cases htext : x.toPlain with
  | nil => exact x.toPlain_ne_nil htext
  | cons c tail =>
    rw [htext, List.cons_append] at heq
    have hmark : isMark c = false := isMark_of_mem_toPlain (by rw [htext]; exact List.mem_cons_self)
    rw [(List.cons.inj heq).1] at hmark
    cases hmark

/-! ## The beginning of an s-expression -/

/-- What begins with a number is that number, inside any groups. -/
theorem sexprOnto_eq_literal (h : MarkNext rest) (h' : MarkNext rest')
    (heq : x.toPlain ++ rest = sexprOnto f rest') :
    literal .nowhere x = f.ungrouped.unplaced ∧ rest = rest' := by
  induction f with
  | literal _ y =>
    obtain ⟨rfl, hrest⟩ := toPlain_append_inj h h' heq
    exact ⟨rfl, hrest⟩
  | group _ _ ih => exact ih heq
  | negate | binary => exact absurd heq (toPlain_append_ne x rest _)

/-- What begins as a negation is one, inside any groups. -/
theorem sexprOnto_eq_negate (heq : ['(', 'n', 'e', 'g', ' '] ++ cs = sexprOnto f rest') :
    ∃ operand, f.ungrouped.unplaced = negate .nowhere operand.ungrouped.unplaced ∧
      cs = sexprOnto operand (')' :: rest') := by
  induction f with
  | literal _ y => exact absurd heq.symm (toPlain_append_ne y rest' _)
  | negate _ operand => exact ⟨operand, rfl, List.append_cancel_left heq⟩
  | group _ _ ih => exact ih heq
  | binary _ op _ _ =>
    have hsymbol : 'n' = op.symbol := (List.cons.inj (List.cons.inj heq).2).1
    exact absurd hsymbol.symm op.symbol_ne_n

/-- What begins as an operation is one with this operator, inside any
groups. -/
theorem sexprOnto_eq_binary (heq : '(' :: op.symbol :: ' ' :: cs = sexprOnto f rest') :
    ∃ left right,
      f.ungrouped.unplaced =
        binary .nowhere op left.ungrouped.unplaced right.ungrouped.unplaced ∧
      cs = sexprOnto left (' ' :: sexprOnto right (')' :: rest')) := by
  induction f with
  | literal _ y => exact absurd heq.symm (toPlain_append_ne y rest' _)
  | negate =>
    have hsymbol : op.symbol = 'n' := (List.cons.inj (List.cons.inj heq).2).1
    exact absurd hsymbol op.symbol_ne_n
  | group _ _ ih => exact ih heq
  | binary _ op' left right =>
    obtain ⟨hsymbol, hoperands⟩ := List.cons.inj (List.cons.inj heq).2
    obtain rfl := BinaryOp.symbol_injective hsymbol
    exact ⟨left, right, rfl, (List.cons.inj hoperands).2⟩

/-! ## Telling trees apart -/

theorem markNext_cons {c : Char} (h : isMark c = true) (rest : List Char) :
    MarkNext (c :: rest) := by
  intro d hd
  cases hd
  exact h

/-- **A tree is told from a text that begins with its s-expression**, apart
from groups and places, and so is where the s-expression ends. -/
theorem sexprOnto_inj (h : MarkNext rest) (h' : MarkNext rest')
    (heq : sexprOnto e rest = sexprOnto f rest') :
    e.ungrouped.unplaced = f.ungrouped.unplaced ∧ rest = rest' := by
  induction e generalizing f rest rest' with
  | literal => exact sexprOnto_eq_literal h h' heq
  | negate _ operand ih =>
    obtain ⟨operand', hf, hoperand⟩ := sexprOnto_eq_negate heq
    obtain ⟨hsame, hrest⟩ := ih (markNext_cons rfl _) (markNext_cons rfl _) hoperand
    rw [hf, ungrouped, unplaced, hsame]
    exact ⟨rfl, (List.cons.inj hrest).2⟩
  | group _ _ ih => exact ih h h' heq
  | binary _ op left right ihl ihr =>
    obtain ⟨left', right', hf, hoperands⟩ := sexprOnto_eq_binary heq
    -- the right operand begins one space after the end of the left one
    obtain ⟨hleft, hspace⟩ := ihl (markNext_cons rfl _) (markNext_cons rfl _) hoperands
    obtain ⟨hright, hrest⟩ :=
      ihr (markNext_cons rfl _) (markNext_cons rfl _) (List.cons.inj hspace).2
    rw [hf, ungrouped, unplaced, hleft, hright]
    exact ⟨rfl, (List.cons.inj hrest).2⟩

theorem unplacedBy_value (h : e.ungrouped.unplaced = f.ungrouped.unplaced) :
    unplacedBy id e.value = unplacedBy id f.value := by
  calc unplacedBy id e.value
      = unplacedBy id e.ungrouped.value := by rw [value_ungrouped]
    _ = e.ungrouped.unplaced.value := (value_unplaced _).symm
    _ = f.ungrouped.unplaced.value := by rw [h]
    _ = unplacedBy id f.ungrouped.value := value_unplaced _
    _ = unplacedBy id f.value := by rw [value_ungrouped]

/-- **The s-expression of a tree is faithful.** Two trees have the same one
exactly when they are the same tree after the groups are taken out and the
places are forgotten; literals are the same when their doubles are, so the
two zeros differ. Then the trees have the same value, or none for the same
cause; and where both were read from tokens, that is what they evaluate to
on a meter without a limit. -/
theorem sexpr_eq_iff (e f : Expr) :
    (e.sexpr = f.sexpr ↔ e.ungrouped.unplaced = f.ungrouped.unplaced) ∧
    (e.sexpr = f.sexpr → unplacedBy id e.value = unplacedBy id f.value ∧
      ∀ limits limits' tokens tokens', ofTokens limits tokens = .ok e →
        ofTokens limits' tokens' = .ok f →
        unplacedBy id (Meter.evaluate ⟨0, Meter.unlimited⟩ e).1 =
          unplacedBy id (Meter.evaluate ⟨0, Meter.unlimited⟩ f).1) := by
  have hends : MarkNext [] := by
    intro c hc
    cases hc
  have hiff : e.sexpr = f.sexpr ↔ e.ungrouped.unplaced = f.ungrouped.unplaced := by
    constructor
    · intro h
      exact (sexprOnto_inj hends hends (String.ofList_injective h)).1
    · intro h
      rw [sexpr, sexpr, ← sexprOnto_ungrouped e, ← sexprOnto_ungrouped f, ← sexprOnto_unplaced, h,
        sexprOnto_unplaced]
  refine ⟨hiff, ?_⟩
  intro h
  have hvalue := unplacedBy_value (hiff.1 h)
  refine ⟨hvalue, ?_⟩
  intro limits limits' tokens tokens' he hf
  rw [evaluate_unlimited he, evaluate_unlimited hf, hvalue]

/-- `1-(2*-3)` and `(1)-2*-3` have the same s-expression, and so the same
value; `(1-2)*-3` has another one. -/
theorem sexpr_eq_iff_difference :
    let token := fun kind col => Token.mk kind (.point ⟨1, col⟩)
    let number := fun n => TokenKind.number (.ofInt n)
    let tokens := [token (number 1) 1, token .minus 2, token .leftParen 3, token (number 2) 4,
      token .star 5, token .minus 6, token (number 3) 7, token .rightParen 8,
      token .endOfInput 9]
    let tokens' := [token .leftParen 1, token (number 1) 2, token .rightParen 3, token .minus 4,
      token (number 2) 5, token .star 6, token .minus 7, token (number 3) 8, token .endOfInput 9]
    let others := [token .leftParen 1, token (number 1) 2, token .minus 3, token (number 2) 4,
      token .rightParen 5, token .star 6, token .minus 7, token (number 3) 8, token .endOfInput 9]
    ∃ e f g, ofTokens .standard tokens = .ok e ∧ ofTokens .standard tokens' = .ok f ∧
      ofTokens .standard others = .ok g ∧ e.sexpr = f.sexpr ∧ e.sexpr ≠ g.sexpr ∧
      unplacedBy id (Meter.evaluate ⟨0, Meter.unlimited⟩ e).1 =
        unplacedBy id (Meter.evaluate ⟨0, Meter.unlimited⟩ f).1 := by
  intro token number tokens tokens' others
  have htrees : ∃ e f g, ofTokens .standard tokens = .ok e ∧ ofTokens .standard tokens' = .ok f ∧
      ofTokens .standard others = .ok g ∧ e.ungrouped.unplaced = f.ungrouped.unplaced ∧
      e.ungrouped.unplaced ≠ g.ungrouped.unplaced :=
    ⟨_, _, _, rfl, rfl, rfl, rfl, by intro h; cases h⟩
  obtain ⟨e, f, g, he, hf, hg, hsame, hother⟩ := htrees
  have hsexpr := (sexpr_eq_iff e f).1.2 hsame
  have hvalue := ((sexpr_eq_iff e f).2 hsexpr).2 _ _ _ _ he hf
  exact ⟨e, f, g, he, hf, hg, hsexpr, mt (sexpr_eq_iff e g).1.1 hother, hvalue⟩

end Expr

end Abacus
