import Abacus.Proofs.Acceptance
import Abacus.Proofs.Chains

/-!
# Heights

How many evaluations are under way at once, one inside the other. A chain of
operators is evaluated in a loop along its left side, so what counts is how
often a tree leaves that side: by the operand of a negation, the inside of a
group, or a right operand. The trees that are read have a shape that bounds
this by the nesting of groups alone: between one group and the next inside
it there are at most a sum, a product and a negation.
-/

namespace Abacus.Expr

variable {limits : Limits} {maxDepth n : Nat} {tokens w : List Token} {e : Expr}

/-! ## Heights -/

mutual

/-- How many evaluations are under way at once when a tree is evaluated, the
one of the tree itself included. -/
def height : Expr → Nat
  | literal .. => 1
  | negate _ operand => operand.height + 1
  | group _ inner => inner.height + 1
  | binary _ _ left right => max left.spine right.height + 1

/-- The greatest height among the first node down the left side of a tree
that is no operator, and the right operands passed on the way there. -/
def spine : Expr → Nat
  | literal .. => 1
  | negate _ operand => operand.height + 1
  | group _ inner => inner.height + 1
  | binary _ _ left right => max left.spine right.height

end

theorem spine_le_iff :
    e.spine ≤ n ↔ e.innermost.height ≤ n ∧ ∀ link ∈ e.links, link.right.height ≤ n := by
  induction e with
  | binary span op left right ih _ =>
    rw [spine, Nat.max_le, ih, innermost, links, List.forall_mem_cons, and_assoc]
    exact and_congr_right fun _ => and_comm
  | _ => simp [spine, innermost, links, height]

/-- **The height of a chain** is one more than the greatest of what its loop
evaluates: the node it begins at, and every right operand along the left
side. -/
theorem height_binary_le_iff {span : Span} {op : BinaryOp} {left right : Expr}
    (he : e = binary span op left right) :
    e.height ≤ n + 1 ↔
      e.innermost.height ≤ n ∧ ∀ link ∈ e.links, link.right.height ≤ n := by
  rw [← spine_le_iff, he, height, spine, Nat.add_le_add_iff_right]

theorem height_le_spine (e : Expr) : e.height ≤ e.spine + 1 := by
  cases e <;> simp [height, spine]

theorem height_pos (e : Expr) : 0 < e.height := by
  cases e <;> simp [height]

@[simp] theorem spine_withSpan (s : Span) (e : Expr) : (e.withSpan s).spine = e.spine := by
  cases e <;> rfl

/-! ## Room for evaluations -/

/-- The operation of a link, given the evaluation of its right operand. -/
def Link.operation (limit : Nat) (link : Link) (right : Metered Double) : Operation := fun x => do
  Metered.tick limit link.span
  let y ← right
  Metered.ofResult link.span (link.op.apply x y)

/-- Evaluates where at most `room` evaluations may be under way at once, one
inside the other. There is no evaluation when that is not enough. -/
def evalIn (limit : Nat) : Nat → Expr → Option (Metered Double)
  | 0, _ => none
  | room + 1, e =>
    match e with
    | literal span value => some do
      Metered.tick limit span
      Metered.ofResult span (literalValue value)
    | negate span operand =>
      (evalIn limit room operand).map fun evaluated => do
        Metered.tick limit span
        let x ← evaluated
        return x.neg
    | group span inner =>
      (evalIn limit room inner).map fun evaluated => do
        Metered.tick limit span
        evaluated
    | binary .. => do
      let first ← evalIn limit room e.innermost
      let operations ← e.links.reverse.mapM fun link =>
        (evalIn limit room link.right).map (link.operation limit)
      return first >>= finishChain operations

theorem mapM_ite {α β : Type} (p : α → Prop) [DecidablePred p] (f : α → β) (xs : List α) :
    (xs.mapM fun a => if p a then some (f a) else none) =
      if ∀ a ∈ xs, p a then some (xs.map f) else none := by
  induction xs with
  | nil => simp
  | cons a xs ih =>
    rw [List.mapM_cons, ih]
    by_cases ha : p a
    · by_cases hxs : ∀ b ∈ xs, p b
      · rw [if_pos ha, if_pos hxs, if_pos (List.forall_mem_cons.2 ⟨ha, hxs⟩)]
        rfl
      · rw [if_pos ha, if_neg hxs, if_neg fun h => hxs (List.forall_mem_cons.1 h).2]
        rfl
    · rw [if_neg ha, if_neg fun h => ha (List.forall_mem_cons.1 h).1]
      rfl

/-- The loop does the operations of the links. -/
theorem eval_eq_finishChain (limit : Nat) (e : Expr) :
    eval limit e = eval limit e.innermost >>= finishChain
      (e.links.reverse.map fun link => link.operation limit (eval limit link.right)) := by
  rw [eval_eq_foldlM]
  refine congrArg _ (funext fun x => ?_)
  rw [finishChain, List.foldlM_map]
  rfl

/-- **The height is the room that an evaluation needs.** With that much room
it is the evaluation, and with less there is none. -/
theorem evalIn_eq (limit room : Nat) (e : Expr) :
    evalIn limit room e = if e.height ≤ room then some (eval limit e) else none := by
  induction room generalizing e with
  | zero => rw [evalIn, if_neg (Nat.not_le.2 e.height_pos)]
  | succ room ih =>
    cases e with
    | literal span value =>
      rw [eval_eq_direct, if_pos (by simp [height])]
      rfl
    | negate span operand =>
      simp only [evalIn, ih, height, Nat.add_le_add_iff_right, Option.map_if, eval_eq_direct,
        direct]
    | group span inner =>
      simp only [evalIn, ih, height, Nat.add_le_add_iff_right, Option.map_if, eval_eq_direct,
        direct]
    | binary span op left right =>
      rw [eval_eq_finishChain]
      simp only [evalIn, ih, height_binary_le_iff rfl, Option.map_if, mapM_ite,
        List.mem_reverse]
      -- the loop begins if there is room for its first node, and goes on if for every link
      generalize binary span op left right = e
      by_cases hfirst : e.innermost.height ≤ room
      · by_cases hlinks : ∀ link ∈ e.links, link.right.height ≤ room
        · rw [if_pos hfirst, if_pos hlinks, if_pos ⟨hfirst, hlinks⟩]
          rfl
        · rw [if_pos hfirst, if_neg hlinks, if_neg (mt And.right hlinks)]
          rfl
      · rw [if_neg hfirst, if_neg (mt And.left hfirst)]
        rfl

/-! ## The shape of trees that are read -/

/-- Whether a tree is a literal or a group. -/
def isPrimary : Expr → Bool
  | literal .. | group .. => true
  | _ => false

/-- Whether a tree is an operator with its operands. -/
def isBinary : Expr → Bool
  | binary .. => true
  | _ => false

/-- Whether a tree is a sum or a difference. -/
def isSum : Expr → Bool
  | binary _ op _ _ => op.isSum
  | _ => false

/-- The shape of the trees that are read. Signs stand before a literal or a
group; what binds looser than an operator is its operand only inside a
group; and chains lean to the left. -/
def Canonical : Expr → Prop
  | literal .. => True
  | negate _ operand => operand.isPrimary = true ∧ operand.Canonical
  | group _ inner => inner.Canonical
  | binary _ op left right =>
    (op.isProduct = true → left.isSum = false ∧ right.isBinary = false) ∧
    (op.isSum = true → right.isSum = false) ∧ left.Canonical ∧ right.Canonical

/-- What a tree is at its root, by the kind of phrase it was read from. -/
def Heads : Phrase → Expr → Prop
  | .primary, e => e.isPrimary = true
  | .factor, e => e.isBinary = false
  | .term, e => e.isSum = false
  | .expression, _ => True

theorem isBinary_of_isPrimary (h : e.isPrimary = true) : e.isBinary = false := by
  cases e <;> first | rfl | cases h

theorem isSum_of_isBinary (h : e.isBinary = false) : e.isSum = false := by
  cases e <;> first | rfl | cases h

@[simp] theorem isPrimary_withSpan (s : Span) (e : Expr) :
    (e.withSpan s).isPrimary = e.isPrimary := by
  cases e <;> rfl

@[simp] theorem canonical_withSpan (s : Span) (e : Expr) :
    (e.withSpan s).Canonical ↔ e.Canonical := by
  cases e <;> rfl

theorem isProduct_of_productOp? {k : TokenKind} {op : BinaryOp} (h : k.productOp? = some op) :
    op.isProduct = true ∧ op.isSum = false := by
  cases k <;> cases h <;> exact ⟨rfl, rfl⟩

theorem isSum_of_sumOp? {k : TokenKind} {op : BinaryOp} (h : k.sumOp? = some op) :
    op.isSum = true ∧ op.isProduct = false := by
  cases k <;> cases h <;> exact ⟨rfl, rfl⟩

theorem Derives.heads {phrase : Phrase} (h : Derives phrase w e) : Heads phrase e := by
  induction h with
  | number | group => rfl
  | unsigned _ ih => exact isBinary_of_isPrimary ih
  | kept _ _ _ ih => exact isBinary_of_isPrimary ((isPrimary_withSpan _ _).trans ih)
  | negated => rfl
  | factor _ ih => exact isSum_of_isBinary ih
  | product _ operator => exact (isProduct_of_productOp? operator).2
  | term | sum => trivial

/-- **Every tree that is read has the shape.** -/
theorem Derives.canonical {phrase : Phrase} (h : Derives phrase w e) : e.Canonical := by
  induction h with
  | number => trivial
  | group _ _ _ ih => exact ih
  | kept _ _ _ ih => simpa using ih
  | negated _ _ primary ih => exact ⟨primary.heads, ih⟩
  | product left operator right ihl ihr =>
    refine ⟨fun _ => ⟨left.heads, right.heads⟩, fun hsum => ?_, ihl, ihr⟩
    rw [(isProduct_of_productOp? operator).2] at hsum
    cases hsum
  | sum left operator right ihl ihr =>
    refine ⟨fun hproduct => ?_, fun _ => right.heads, ihl, ihr⟩
    rw [(isSum_of_sumOp? operator).2] at hproduct
    cases hproduct
  | unsigned _ ih | factor _ ih | term _ ih => exact ih

/-! ## Heights of trees that are read -/

/-- How many evaluations a phrase adds to those of a group directly inside
it, up to the one of its own loop. -/
def Phrase.levels : Phrase → Nat
  | .primary => 1
  | .factor | .term => 2
  | .expression => 3

theorem height_eq_spine (h : e.isBinary = false) : e.height = e.spine := by
  cases e with
  | binary => cases h
  | _ => simp [height, spine]

/-- **Nesting bounds heights.** Each group that may still be opened adds at
most four evaluations: those of a sum, of a product, of a negation, and its
own. -/
theorem Derives.spine_le {phrase : Phrase} (h : Derives phrase w e) {groups : List Open}
    (room : RoomFor maxDepth groups w) :
    e.spine ≤ 4 * (maxDepth - groups.length) + phrase.levels := by
  induction h generalizing groups with
  | number => simp [spine, Phrase.levels]
  | @group w e s s' inner ih =>
    have hinside : RoomFor maxDepth (⟨s, .none⟩ :: groups) w := room.inside
    have hspine := ih hinside
    have hheight := e.height_le_spine
    have hlength := hinside.length_le
    simp only [List.length_cons, Phrase.levels] at hspine hlength
    simp only [spine, Phrase.levels]
    omega
  | unsigned _ ih => exact Nat.le_succ_of_le (ih room)
  | kept run _ _ ih =>
    rw [spine_withSpan]
    exact Nat.le_succ_of_le (ih (room.right (nesting_of_signs run)))
  | negated run _ primary ih =>
    have hspine := ih (room.right (nesting_of_signs run))
    rw [← height_eq_spine (isBinary_of_isPrimary primary.heads)] at hspine
    simp only [spine, Phrase.levels] at hspine ⊢
    omega
  | factor _ ih => exact ih room
  | product left operator right ihl ihr =>
    have hleft := ihl room.left
    have hright := ihr (room.after left.nesting_eq (TokenKind.turn_of_productOp? operator))
    rw [← height_eq_spine right.heads] at hright
    rw [spine]
    exact Nat.max_le.2 ⟨hleft, hright⟩
  | term _ ih => exact Nat.le_succ_of_le (ih room)
  | @sum u v t l r op left operator right ihl ihr =>
    have hleft := ihl room.left
    have hright := ihr (room.after left.nesting_eq (TokenKind.turn_of_sumOp? operator))
    rw [spine]
    exact Nat.max_le.2 ⟨hleft, Nat.le_trans r.height_le_spine (Nat.succ_le_succ hright)⟩

theorem Derives.height_le (h : Derives .expression w e) (hdepth : NestedWithin maxDepth w) :
    e.height ≤ 4 * (maxDepth + 1) := by
  have room : RoomFor maxDepth [] w := fun q hq => by simpa using hdepth q hq
  have hspine := h.spine_le room
  have hheight := e.height_le_spine
  simp only [List.length_nil, Phrase.levels] at hspine
  omega

/-- **Evaluations nest with groups, not with length.** Every tree that a list
of tokens has is of the canonical shape, and its height is at most four for
each level of groups, one level more than may be nested, however many
tokens there are. So there is room for its evaluation where that many
evaluations may be under way at once. -/
theorem height_of_ofTokens (h : ofTokens limits tokens = .ok e) :
    e.Canonical ∧ e.height ≤ 4 * (min limits.maxDepth 256 + 1) ∧
      ∀ limit, evalIn limit (4 * (min limits.maxDepth 256 + 1)) e = some (eval limit e) := by
  have accepted := accepted_of_ofTokens h
  have hheight := accepted.derives.height_le accepted.nested
  exact ⟨accepted.derives.canonical, hheight, fun limit => by rw [evalIn_eq, if_pos hheight]⟩

/-- In `1+2*-(3+4*-5)` every level adds its four, but for the number at the
end. -/
theorem height_of_ofTokens_nested :
    let token := fun kind col => Token.mk kind (.point ⟨1, col⟩)
    let number := fun n => TokenKind.number (.ofInt n)
    let tokens := [token (number 1) 1, token .plus 2, token (number 2) 3, token .star 4,
      token .minus 5, token .leftParen 6, token (number 3) 7, token .plus 8, token (number 4) 9,
      token .star 10, token .minus 11, token (number 5) 12, token .rightParen 13,
      token .endOfInput 14]
    ∃ e, ofTokens ⟨1, 20, none⟩ tokens = .ok e ∧ e.Canonical ∧ e.height = 8 ∧
      e.height ≤ 4 * (min 1 256 + 1) := by
  intro token number tokens
  have htree : ∃ e, ofTokens ⟨1, 20, none⟩ tokens = .ok e ∧ e.height = 8 := ⟨_, rfl, rfl⟩
  obtain ⟨e, he, hheight⟩ := htree
  obtain ⟨hcanonical, hle, -⟩ := height_of_ofTokens he
  exact ⟨e, he, hcanonical, hheight, hle⟩

end Abacus.Expr
