import Abacus.Proofs.Acceptance
import Abacus.Proofs.Placement

/-!
# Parts

The parts of a tree and the tokens they were read from. Every part is
derived from tokens that stand next to each other, and since a phrase is an
expression whatever stands around it, these tokens alone have the part as
their tree. As the tokens of a text come in its order, a span that is merged
from two others begins with the first token and ends with the last.
-/

namespace Abacus

/-- A span lies inside another. -/
def Span.Inside (s t : Span) : Prop :=
  t.first.upTo s.first = true ∧ s.last.upTo t.last = true

/-- A span delimits tokens: it begins where the first of them begins, and
ends where the last of them ends. -/
def Span.Delimits (s : Span) (w : List Token) : Prop :=
  ∃ a b, w.head? = some a ∧ w.getLast? = some b ∧ s = ⟨a.span.first, b.span.last⟩

namespace Expr

variable {limits : Limits} {s t : Span} {a b token token' : Token} {u v w x : List Token}
  {e n : Expr}

/-! ## Tokens in order -/

/-- Tokens one after the other, as a text has them. -/
structure InOrder (w : List Token) : Prop where
  upTo : ∀ t ∈ w, t.span.first.upTo t.span.last = true
  before : w.Pairwise fun t t' => t.span.last.Before t'.span.first

theorem InOrder.sublist (h : InOrder w) (hsub : v.Sublist w) : InOrder v :=
  ⟨fun t ht => h.upTo t (hsub.subset ht), h.before.sublist hsub⟩

/-- Nothing begins before the first token. -/
theorem InOrder.head_upTo (h : InOrder w) (ha : w.head? = some a) (hb : b ∈ w) :
    a.span.first.upTo b.span.first = true := by
  obtain ⟨w, rfl⟩ := List.head?_eq_some_iff.1 ha
  rcases List.mem_cons.1 hb with rfl | hb
  · exact Position.upTo_refl _
  · have hbefore := (List.pairwise_cons.1 h.before).1 b hb
    exact Position.upTo_trans (h.upTo a List.mem_cons_self) hbefore.upTo

/-- Nothing ends after the last token. -/
theorem InOrder.upTo_getLast (h : InOrder w) (ha : w.getLast? = some a) (hb : b ∈ w) :
    b.span.last.upTo a.span.last = true := by
  obtain ⟨w, rfl⟩ := List.getLast?_eq_some_iff.1 ha
  rcases List.mem_append.1 hb with hb | hb
  · have hbefore := (List.pairwise_append.1 h.before).2.2 b hb a (List.mem_singleton_self a)
    have hlast := h.upTo a (List.mem_append_right _ (List.mem_singleton_self a))
    exact Position.upTo_trans hbefore.upTo hlast
  · rw [List.mem_singleton.1 hb]
    exact Position.upTo_refl _

/-- **Merged spans delimit** all that stands from the one to the other. -/
theorem InOrder.delimits_merge (h : InOrder (u ++ x ++ v)) (hs : s.Delimits u)
    (ht : t.Delimits v) : (s.merge t).Delimits (u ++ x ++ v) := by
  obtain ⟨a, b, ha, hb, rfl⟩ := hs
  obtain ⟨c, d, hc, hd, rfl⟩ := ht
  have hhead : (u ++ x ++ v).head? = some a := by
    rw [List.append_assoc, List.head?_append, ha, Option.some_or]
  have hlast : (u ++ x ++ v).getLast? = some d := by
    rw [List.getLast?_append, hd, Option.some_or]
  have hfirst := h.head_upTo hhead (List.mem_append_right _ (List.mem_of_head? hc))
  have hend := h.upTo_getLast hlast
    (List.mem_append_left _ (List.mem_append_left _ (List.mem_of_getLast? hb)))
  refine ⟨a, d, hhead, hlast, ?_⟩
  rw [Span.merge, Position.earlier, Position.later, if_pos hfirst, if_pos hend]

/-- What delimits some of the tokens lies inside what delimits all. -/
theorem InOrder.inside (h : InOrder w) (hv : v ⊆ w) (ht : t.Delimits w) (hs : s.Delimits v) :
    s.Inside t := by
  obtain ⟨a, b, ha, hb, rfl⟩ := hs
  obtain ⟨c, d, hc, hd, rfl⟩ := ht
  exact ⟨h.head_upTo hc (hv (List.mem_of_head? ha)),
    h.upTo_getLast hd (hv (List.mem_of_getLast? hb))⟩

theorem delimits_singleton (token : Token) : token.span.Delimits [token] :=
  ⟨token, token, rfl, rfl, rfl⟩

/-- A run of signs and what it stands before. -/
theorem InOrder.delimits_signed (h : InOrder (token :: x ++ w))
    (operand : InOrder w → s.Delimits w) :
    (token.span.merge s).Delimits (token :: x ++ w) := by
  have hoperand := operand (h.sublist (List.sublist_append_right _ w))
  exact InOrder.delimits_merge (u := [token]) h (delimits_singleton token) hoperand

/-- Two operands and the operator between them. -/
theorem InOrder.delimits_operation (h : InOrder (u ++ token :: v))
    (left : InOrder u → s.Delimits u) (right : InOrder v → t.Delimits v) :
    (s.merge t).Delimits (u ++ token :: v) := by
  have hleft := left (h.sublist (List.sublist_append_left u _))
  have hright := right (h.sublist
    ((List.sublist_cons_self token v).trans (List.sublist_append_right u _)))
  rw [List.append_cons] at h ⊢
  exact h.delimits_merge hleft hright

/-- **A span delimits the tokens of its node.** -/
theorem Derives.delimits {phrase : Phrase} (h : Derives phrase w e) (horder : InOrder w) :
    e.span.Delimits w := by
  induction h with
  | number s x => exact delimits_singleton _
  | @group w _ s s' _ _ =>
    exact InOrder.delimits_merge (u := [⟨.leftParen, s⟩]) (x := w) horder
      (delimits_singleton _) (delimits_singleton ⟨.rightParen, s'⟩)
  | unsigned _ ih => exact ih horder
  | kept _ _ _ ih =>
    rw [span_withSpan]
    exact horder.delimits_signed ih
  | negated _ _ _ ih => exact horder.delimits_signed ih
  | factor _ ih => exact ih horder
  | product _ _ _ ihl ihr => exact horder.delimits_operation ihl ihr
  | term _ ih => exact ih horder
  | sum _ _ _ ihl ihr => exact horder.delimits_operation ihl ihr

/-! ## Parts -/

/-- `Part n e`: the tree `n` is a node of the tree `e`, with all below it. -/
inductive Part (n : Expr) : Expr → Prop
  | self : Part n n
  | operand {e : Expr} (s : Span) (part : Part n e) : Part n (.negate s e)
  | inner {e : Expr} (s : Span) (part : Part n e) : Part n (.group s e)
  | left {l : Expr} (s : Span) (op : BinaryOp) (r : Expr) (part : Part n l) :
      Part n (.binary s op l r)
  | right {r : Expr} (s : Span) (op : BinaryOp) (l : Expr) (part : Part n r) :
      Part n (.binary s op l r)

/-- A part of a part is a part. -/
theorem Part.trans {e' : Expr} (h : Part n e') (h' : Part e' e) : Part n e := by
  induction h' with
  | self => exact h
  | operand s _ ih => exact .operand s ih
  | inner s _ ih => exact .inner s ih
  | left s op r _ ih => exact .left s op r ih
  | right s op l _ ih => exact .right s op l ih

theorem Part.size_le (h : Part n e) : n.size ≤ e.size := by
  induction h with
  | self => exact Nat.le_refl _
  | _ => rw [size]; omega

/-- A tree that stands elsewhere has the same parts below it. -/
theorem Part.of_withSpan (h : Part n (e.withSpan s)) : n = e.withSpan s ∨ Part n e := by
  cases e with
  | literal => cases h with
    | self => exact .inl rfl
  | negate => cases h with
    | self => exact .inl rfl
    | operand _ part => exact .inr (.operand _ part)
  | group => cases h with
    | self => exact .inl rfl
    | inner _ part => exact .inr (.inner _ part)
  | binary => cases h with
    | self => exact .inl rfl
    | left _ _ _ part => exact .inr (.left _ _ _ part)
    | right _ _ _ part => exact .inr (.right _ _ _ part)

/-- A phrase of any kind is an expression by itself. -/
theorem Derives.expression {phrase : Phrase} (h : Derives phrase w e) :
    Derives .expression w e := by
  cases phrase with
  | expression => exact h
  | term => exact .term h
  | factor => exact .term (.factor h)
  | primary => exact .term (.factor (.unsigned h))

/-- The tokens of a part of an operand are among those of the operation. -/
theorem exists_tokens_of_operation {l r : Expr} {op : BinaryOp}
    (operation : Derives .expression (u ++ token :: v) (.binary s op l r))
    (left : Part n l → ∃ x, x <:+: u ∧ Derives .expression x n)
    (right : Part n r → ∃ x, x <:+: v ∧ Derives .expression x n)
    (hpart : Part n (.binary s op l r)) :
    ∃ x, x <:+: u ++ token :: v ∧ Derives .expression x n := by
  cases hpart with
  | self => exact ⟨_, List.infix_rfl, operation⟩
  | left _ _ _ part =>
    obtain ⟨x, hx, hderives⟩ := left part
    exact ⟨x, hx.trans (List.prefix_append u _).isInfix, hderives⟩
  | right _ _ _ part =>
    obtain ⟨x, hx, hderives⟩ := right part
    have hright : v <:+ u ++ token :: v := (List.suffix_cons token v).trans (List.suffix_append u _)
    exact ⟨x, hx.trans hright.isInfix, hderives⟩

/-- **A part has its own tokens**, which stand next to each other. -/
theorem Derives.exists_tokens_of_part {phrase : Phrase} (h : Derives phrase w e)
    (hpart : Part n e) : ∃ v, v <:+: w ∧ Derives .expression v n := by
  induction h with
  | number s x => cases hpart with
    | self => exact ⟨_, List.infix_rfl, (Derives.number s x).expression⟩
  | group s s' inner ih => cases hpart with
    | self => exact ⟨_, List.infix_rfl, (Derives.group s s' inner).expression⟩
    | inner _ part =>
      obtain ⟨v, hv, hderives⟩ := ih part
      exact ⟨v, hv.trans (List.infix_append [_] _ [_]), hderives⟩
  | unsigned _ ih => exact ih hpart
  | kept run even primary ih =>
    -- the node itself begins at the signs, those below it do not
    rcases hpart.of_withSpan with rfl | hpart
    · exact ⟨_, List.infix_rfl, (Derives.kept run even primary).expression⟩
    · obtain ⟨v, hv, hderives⟩ := ih hpart
      exact ⟨v, hv.trans (List.suffix_append _ _).isInfix, hderives⟩
  | negated run odd primary ih => cases hpart with
    | self => exact ⟨_, List.infix_rfl, (Derives.negated run odd primary).expression⟩
    | operand _ part =>
      obtain ⟨v, hv, hderives⟩ := ih part
      exact ⟨v, hv.trans (List.suffix_append _ _).isInfix, hderives⟩
  | factor _ ih => exact ih hpart
  | product left operator right ihl ihr =>
    exact exists_tokens_of_operation (Derives.product left operator right).expression ihl ihr hpart
  | term _ ih => exact ih hpart
  | sum left operator right ihl ihr =>
    exact exists_tokens_of_operation (Derives.sum left operator right) ihl ihr hpart

/-- **The tokens of a part have it as their tree**, with any end of the text
after them: what stands before them has closed no group that it did not
open, so they are nested no deeper than they were. -/
theorem ofTokens_alone (h : ofTokens limits (w ++ [token]) = .ok e)
    (hne : ∀ t ∈ w, t.kind ≠ .endOfInput) (hend : token.kind = .endOfInput) (hv : v <:+: w)
    (hderives : Derives .expression v n) (hend' : token'.kind = .endOfInput) :
    ofTokens limits (v ++ [token']) = .ok n := by
  obtain ⟨hshort, sum?, term, walk, rfl⟩ := (ofTokens_concat_eq_ok_iff hne hend).1 h
  have hlength := hv.length_le
  have room : RoomFor limits.clamped.maxDepth [] v := by
    intro q hq
    obtain ⟨u, x, rfl⟩ := hv
    obtain ⟨y, rfl⟩ := hq
    have hdepth := walk.nestedWithin (u ++ q) ⟨y ++ x, by simp⟩
    have hopen := (walk.balanced hend).1 u ⟨q ++ y ++ x ++ [token], by simp⟩
    rw [nesting_append] at hdepth
    rw [List.length_nil]
    omega
  obtain ⟨sum'?, term', rfl, alone⟩ := hderives.walks room
  refine (ofTokens_concat_eq_ok_iff alone.ne_end hend').2 ⟨?_, sum'?, term', alone, rfl⟩
  omega

end Expr

end Abacus
