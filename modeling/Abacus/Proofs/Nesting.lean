import Abacus.Expr.OfTokens

/-!
# Nesting

How deep a list of tokens stands in parentheses, as a count that every `(`
raises by one and every `)` lowers by one. Balance and depth are
statements about this count on prefixes, so neither mentions a stack; the
check that keeps a stack of open parentheses is shown to decide balance.
-/

namespace Abacus

/-- What a token adds to the number of open groups. -/
def TokenKind.turn : TokenKind → Int
  | .leftParen => 1
  | .rightParen => -1
  | _ => 0

@[simp] theorem TokenKind.turn_leftParen : TokenKind.leftParen.turn = 1 := rfl

@[simp] theorem TokenKind.turn_rightParen : TokenKind.rightParen.turn = -1 := rfl

namespace Expr

/-- How many more `(` than `)` there are. -/
def nesting : List Token → Int
  | [] => 0
  | t :: ts => t.kind.turn + nesting ts

/-- The parentheses form a balanced word: no prefix closes more than it
opens, and in all as many are closed as are opened. -/
def Balanced (tokens : List Token) : Prop :=
  (∀ w, w <+: tokens → 0 ≤ nesting w) ∧ nesting tokens = 0

/-- No `(` opens a group that is nested deeper than `depth`: neither just
after it nor anywhere else do more groups stand open. -/
def NestedWithin (depth : Nat) (tokens : List Token) : Prop :=
  ∀ w, w <+: tokens → nesting w ≤ depth

@[simp] theorem nesting_nil : nesting [] = 0 := rfl

@[simp] theorem nesting_cons (t : Token) (ts : List Token) :
    nesting (t :: ts) = t.kind.turn + nesting ts := rfl

@[simp] theorem nesting_append (u v : List Token) :
    nesting (u ++ v) = nesting u + nesting v := by
  induction u with
  | nil => simp
  | cons t u ih => rw [List.cons_append, nesting_cons, nesting_cons, ih, Int.add_assoc]

theorem nesting_le_length (w : List Token) : nesting w ≤ w.length := by
  induction w with
  | nil => exact Int.le_refl _
  | cons t w ih =>
    have hturn : t.kind.turn ≤ 1 := by cases t.kind <;> simp [TokenKind.turn]
    rw [nesting_cons, List.length_cons]
    omega

theorem forall_prefix_cons {P : List Token → Prop} {t : Token} {ts : List Token} :
    (∀ w, w <+: t :: ts → P w) ↔ P [] ∧ ∀ w, w <+: ts → P (t :: w) := by
  constructor
  · intro h
    exact ⟨h [] List.nil_prefix, fun w hw => h (t :: w) (List.cons_prefix_cons.2 ⟨rfl, hw⟩)⟩
  · rintro ⟨hnil, hcons⟩ w hw
    rcases List.prefix_cons_iff.1 hw with rfl | ⟨v, rfl, hv⟩
    · exact hnil
    · exact hcons v hv

/-- A prefix of a list is either within its first part or that part and a
prefix of the second. -/
theorem forall_prefix_append {P : List Token → Prop} {u v : List Token} :
    (∀ w, w <+: u ++ v → P w) ↔ (∀ w, w <+: u → P w) ∧ ∀ w, w <+: v → P (u ++ w) := by
  induction u generalizing P with
  | nil =>
    simp only [List.nil_append, List.prefix_nil]
    constructor
    · intro h
      exact ⟨fun w hw => hw ▸ h [] List.nil_prefix, h⟩
    · exact fun h => h.2
  | cons t u ih =>
    rw [List.cons_append, forall_prefix_cons, forall_prefix_cons, ih, and_assoc]
    rfl

/-! ## The check on a stack -/

theorem unbalanced?_leftParen (opened : List Span) (s : Span) (ts : List Token) :
    unbalanced? opened (⟨.leftParen, s⟩ :: ts) = unbalanced? (s :: opened) ts := by
  simp [unbalanced?]

theorem unbalanced?_rightParen (s s' : Span) (opened : List Span) (ts : List Token) :
    unbalanced? (s :: opened) (⟨.rightParen, s'⟩ :: ts) = unbalanced? opened ts := by
  simp [unbalanced?]

theorem unbalanced?_of_turn_eq_zero (opened : List Span) {t : Token} (ts : List Token)
    (h : t.kind.turn = 0) : unbalanced? opened (t :: ts) = unbalanced? opened ts := by
  obtain ⟨kind, s⟩ := t
  cases kind <;> simp_all [unbalanced?, TokenKind.turn]

theorem unbalanced?_append {v v' : List Token}
    (h : ∀ opened, unbalanced? opened v = unbalanced? opened v') (opened : List Span)
    (u : List Token) : unbalanced? opened (u ++ v) = unbalanced? opened (u ++ v') := by
  induction u generalizing opened with
  | nil => exact h opened
  | cons t u ih =>
    obtain ⟨kind, s⟩ := t
    rw [List.cons_append, List.cons_append]
    cases kind with
    | rightParen => cases opened with
      | nil => rfl
      | cons s' opened => rw [unbalanced?_rightParen, unbalanced?_rightParen, ih]
    | leftParen => rw [unbalanced?_leftParen, unbalanced?_leftParen, ih]
    | _ => rw [unbalanced?_of_turn_eq_zero _ _ rfl, unbalanced?_of_turn_eq_zero _ _ rfl, ih]

/-- The check on a stack of open parentheses finds nothing exactly when the
tokens close the open ones and are balanced apart from that. -/
theorem unbalanced?_eq_none (opened : List Span) (tokens : List Token) :
    unbalanced? opened tokens = none ↔
      (∀ w, w <+: tokens → 0 ≤ opened.length + nesting w) ∧
        opened.length + nesting tokens = 0 := by
  induction tokens generalizing opened with
  | nil => cases opened <;> simp [unbalanced?]; omega
  | cons t ts ih =>
    obtain ⟨kind, s⟩ := t
    rw [forall_prefix_cons]
    by_cases hturn : kind.turn = 0
    · rw [unbalanced?_of_turn_eq_zero opened ts hturn, ih]
      simp [hturn]
    · cases kind with
      | leftParen =>
        rw [unbalanced?_leftParen, ih]
        simp [Int.add_assoc]
      | rightParen =>
        cases opened with
        | nil =>
          -- the prefix that is just this token already closes too much
          constructor
          · intro h
            simp [unbalanced?] at h
          · rintro ⟨⟨-, h⟩, -⟩
            have := h [] List.nil_prefix
            simp at this
        | cons s' opened =>
          have hcancel : ∀ n : Int,
              ((s' :: opened).length : Int) + (-1 + n) = opened.length + n := by
            intro n
            simp only [List.length_cons]
            omega
          rw [unbalanced?_rightParen, ih]
          simp only [nesting_cons, TokenKind.turn_rightParen, hcancel, nesting_nil]
          simp
          omega
      | _ => exact absurd rfl hturn

/-- **The check finds nothing exactly when the parentheses are balanced.** -/
theorem unbalanced?_nil_eq_none (tokens : List Token) :
    unbalanced? [] tokens = none ↔ Balanced tokens := by
  simp [unbalanced?_eq_none, Balanced]

end Expr

end Abacus
