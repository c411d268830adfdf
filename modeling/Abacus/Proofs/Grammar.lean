import Abacus.Proofs.Nesting

/-!
# Grammar

The grammar of expressions, apart from any way of reading them: which
lists of tokens form a phrase, and the tree of each.

* an expression is a term, or an expression, `+` or `-`, and a term;
* a term is a factor, or a term, `*` or `/`, and a factor;
* a factor is a primary, or a run of signs and a primary;
* a primary is a number, or an expression in parentheses.

Recursion on the left is what makes chains lean to the left.
-/

namespace Abacus

/-- Whether an operator is of the tier that goes first. -/
def BinaryOp.isProduct : BinaryOp → Bool
  | mul | div => true
  | add | sub => false

/-- Whether an operator is of the tier that goes last. -/
def BinaryOp.isSum : BinaryOp → Bool
  | add | sub => true
  | mul | div => false

namespace TokenKind

/-- The operator that a token is between two terms. -/
def sumOp? : TokenKind → Option BinaryOp
  | plus => some .add
  | minus => some .sub
  | _ => none

/-- The operator that a token is between two factors. -/
def productOp? : TokenKind → Option BinaryOp
  | star => some .mul
  | slash => some .div
  | _ => none

theorem ne_of_isSign {k k' : TokenKind} (h : k.isSign = true) (h' : k'.isSign = false) :
    k ≠ k' := by
  rintro rfl
  rw [h] at h'
  cases h'

theorem turn_of_isSign {k : TokenKind} (h : k.isSign = true) : k.turn = 0 := by
  cases k <;> first | rfl | cases h

theorem turn_of_sumOp? {k : TokenKind} {op : BinaryOp} (h : k.sumOp? = some op) :
    k.turn = 0 := by
  cases k <;> first | rfl | cases h

theorem turn_of_productOp? {k : TokenKind} {op : BinaryOp} (h : k.productOp? = some op) :
    k.turn = 0 := by
  cases k <;> first | rfl | cases h

end TokenKind

namespace Expr

/-- The kinds of phrase, the loosest first. -/
inductive Phrase where
  | expression
  | term
  | factor
  | primary

/-- Whether a run of signs negates what follows it: it holds an odd number
of `-`. -/
def negates (signs : List Token) : Bool :=
  signs.countP (·.kind == .minus) % 2 == 1

/-- `Derives phrase tokens e`: the tokens form a phrase of this kind, and `e`
is its tree. -/
inductive Derives : Phrase → List Token → Expr → Prop
  | number (s : Span) (x : Double) : Derives .primary [⟨.number x, s⟩] (.literal s x)
  | group {w : List Token} {e : Expr} (s s' : Span) (inner : Derives .expression w e) :
      Derives .primary (⟨.leftParen, s⟩ :: w ++ [⟨.rightParen, s'⟩]) (.group (s.merge s') e)
  | unsigned {w : List Token} {e : Expr} (primary : Derives .primary w e) :
      Derives .factor w e
  /-- A run that does not negate adds nothing but its place. -/
  | kept {sign : Token} {signs w : List Token} {e : Expr}
      (run : ∀ t ∈ sign :: signs, t.kind.isSign = true)
      (even : negates (sign :: signs) = false) (primary : Derives .primary w e) :
      Derives .factor (sign :: signs ++ w) (e.withSpan (sign.span.merge e.span))
  /-- A run that negates is one negation. -/
  | negated {sign : Token} {signs w : List Token} {e : Expr}
      (run : ∀ t ∈ sign :: signs, t.kind.isSign = true)
      (odd : negates (sign :: signs) = true) (primary : Derives .primary w e) :
      Derives .factor (sign :: signs ++ w) (.negate (sign.span.merge e.span) e)
  | factor {w : List Token} {e : Expr} (factor : Derives .factor w e) : Derives .term w e
  | product {u v : List Token} {t : Token} {l r : Expr} {op : BinaryOp}
      (left : Derives .term u l) (operator : t.kind.productOp? = some op)
      (right : Derives .factor v r) :
      Derives .term (u ++ t :: v) (.binary (l.span.merge r.span) op l r)
  | term {w : List Token} {e : Expr} (term : Derives .term w e) : Derives .expression w e
  | sum {u v : List Token} {t : Token} {l r : Expr} {op : BinaryOp}
      (left : Derives .expression u l) (operator : t.kind.sumOp? = some op)
      (right : Derives .term v r) :
      Derives .expression (u ++ t :: v) (.binary (l.span.merge r.span) op l r)

/-- The tokens before the first end of the text. -/
def beforeEnd (tokens : List Token) : List Token :=
  tokens.takeWhile (·.kind != .endOfInput)

/-! ## Runs of signs -/

@[simp] theorem negates_nil : negates [] = false := rfl

@[simp] theorem negates_append (u v : List Token) :
    negates (u ++ v) = (negates u ^^ negates v) := by
  have hparity : ∀ m n : Nat, ((m + n) % 2 == 1) = ((m % 2 == 1) ^^ (n % 2 == 1)) := by
    intro m n
    rw [Nat.add_mod]
    rcases Nat.mod_two_eq_zero_or_one m with hm | hm <;>
      rcases Nat.mod_two_eq_zero_or_one n with hn | hn <;> rw [hm, hn] <;> rfl
  simp only [negates, List.countP_append, hparity]

@[simp] theorem negates_singleton (t : Token) : negates [t] = (t.kind == .minus) := by
  by_cases h : t.kind = .minus <;> simp [negates, h]

theorem negates_cons (t : Token) (ts : List Token) :
    negates (t :: ts) = ((t.kind == .minus) ^^ negates ts) := by
  rw [← List.singleton_append, negates_append, negates_singleton]

theorem nesting_of_signs {signs : List Token} (run : ∀ t ∈ signs, t.kind.isSign = true) :
    nesting signs = 0 := by
  induction signs with
  | nil => rfl
  | cons t ts ih =>
    rw [nesting_cons, TokenKind.turn_of_isSign (run t (by simp)),
      ih fun x hx => run x (by simp [hx])]
    rfl

/-! ## Phrases -/

/-- A phrase closes the groups it opens. -/
theorem Derives.nesting_eq {phrase : Phrase} {w : List Token} {e : Expr}
    (h : Derives phrase w e) : nesting w = 0 := by
  induction h with
  | number => rfl
  | group s s' _ ih => simp [ih]
  | unsigned _ ih => exact ih
  | kept run _ _ ih => rw [nesting_append, nesting_of_signs run, ih]; rfl
  | negated run _ _ ih => rw [nesting_append, nesting_of_signs run, ih]; rfl
  | factor _ ih => exact ih
  | product _ operator _ ihl ihr =>
    rw [nesting_append, nesting_cons, TokenKind.turn_of_productOp? operator, ihl, ihr]
    rfl
  | term _ ih => exact ih
  | sum _ operator _ ihl ihr =>
    rw [nesting_append, nesting_cons, TokenKind.turn_of_sumOp? operator, ihl, ihr]
    rfl

end Expr

end Abacus
