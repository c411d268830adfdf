import Abacus.Proofs.Walk

/-!
# Reading

The machine that reads tokens against the grammar. A state stands for the
phrases that have been read and still wait (`StateFrom`); a move keeps
this, so what is read in the end is an expression. The other way round,
every phrase is walked through from any state that waits for it
(`Derives.walks`), so nothing of the grammar is missed.
-/

namespace Abacus.Expr

variable {maxDepth : Nat} {state state' : State} {token : Token}
  {tokens u v w : List Token} {e : Expr}

/-! ## What is read is a phrase -/

/-- The phrase and the operator that a left operand was read from. -/
def WaitsFrom (phrase : Phrase) (op? : TokenKind → Option BinaryOp) :
    Option Waiting → List Token → Prop
  | none, w => w = []
  | some waiting, w =>
    ∃ u t, w = u ++ [t] ∧ Derives phrase u waiting.left ∧ op? t.kind = some waiting.op

/-- The run that signs were read from. -/
def SignsFrom : Option Signs → List Token → Prop
  | none, w => w = []
  | some signs, w =>
    (∀ t ∈ w, t.kind.isSign = true) ∧ ∃ t ts, w = t :: ts ∧ signs = ⟨t.span, negates w⟩

/-- The tokens of what waits for an operand: a sum, then a product, then
signs. -/
inductive PendingFrom : Pending → List Token → Prop
  | mk {sum? product? : Option Waiting} {signs? : Option Signs} {u v w : List Token}
      (sum : WaitsFrom .expression TokenKind.sumOp? sum? u)
      (product : WaitsFrom .term TokenKind.productOp? product? v)
      (signs : SignsFrom signs? w) : PendingFrom ⟨sum?, product?, signs?⟩ (u ++ v ++ w)

/-- The tokens of the open groups, each up to its `(`. -/
inductive GroupsFrom : List Open → List Token → Prop
  | nil : GroupsFrom [] []
  | cons {groups : List Open} {outer : Pending} {u v : List Token} (s : Span)
      (rest : GroupsFrom groups u) (pending : PendingFrom outer v) :
      GroupsFrom (⟨s, outer⟩ :: groups) (u ++ v ++ [⟨.leftParen, s⟩])

/-- The tokens that a state stands for. -/
inductive StateFrom : State → List Token → Prop
  | needOperand {pending : Pending} {groups : List Open} {u v : List Token}
      (rest : GroupsFrom groups u) (wait : PendingFrom pending v) :
      StateFrom (.needOperand pending groups) (u ++ v)
  | haveTerm {sum? : Option Waiting} {e : Expr} {groups : List Open} {u v w : List Token}
      (rest : GroupsFrom groups u) (sum : WaitsFrom .expression TokenKind.sumOp? sum? v)
      (term : Derives .term w e) : StateFrom (.haveTerm sum? e groups) (u ++ v ++ w)

theorem WaitsFrom.nil (phrase : Phrase) (op? : TokenKind → Option BinaryOp) :
    WaitsFrom phrase op? none [] := rfl

theorem SignsFrom.nil : SignsFrom none [] := rfl

theorem PendingFrom.none : PendingFrom .none [] :=
  .mk (.nil _ _) (.nil _ _) .nil

theorem StateFrom.start : StateFrom .start [] :=
  .needOperand .nil .none

theorem SignsFrom.addSign {signs? : Option Signs} (h : SignsFrom signs? w)
    (hsign : token.kind.isSign = true) :
    SignsFrom (some (Expr.addSign signs? token.span (token.kind == .minus))) (w ++ [token]) := by
  cases signs? with
  | none =>
    cases h
    exact ⟨by simpa using hsign, token, [], rfl, by simp [Expr.addSign]⟩
  | some signs =>
    obtain ⟨run, t, ts, rfl, rfl⟩ := h
    refine ⟨?_, t, ts ++ [token], rfl, ?_⟩
    · intro x hx
      rcases List.mem_append.1 hx with hx | hx
      · exact run x hx
      · rw [List.mem_singleton.1 hx]
        exact hsign
    · rw [negates_append, negates_singleton]
      rfl

theorem SignsFrom.factor {signs? : Option Signs} (h : SignsFrom signs? u)
    (primary : Derives .primary v e) : Derives .factor (u ++ v) (signed signs? e) := by
  cases signs? with
  | none =>
    cases h
    exact .unsigned primary
  | some signs =>
    obtain ⟨run, t, ts, rfl, rfl⟩ := h
    cases hodd : negates (t :: ts) with
    | false => simpa [signed, hodd] using Derives.kept run hodd primary
    | true => simpa [signed, hodd] using Derives.negated run hodd primary

theorem WaitsFrom.term {product? : Option Waiting}
    (h : WaitsFrom .term TokenKind.productOp? product? u) (factor : Derives .factor v e) :
    Derives .term (u ++ v) (complete product? e) := by
  cases product? with
  | none =>
    cases h
    exact .factor factor
  | some waiting =>
    obtain ⟨x, t, rfl, left, operator⟩ := h
    simpa [complete, join, List.append_assoc] using Derives.product left operator factor

theorem WaitsFrom.expression {sum? : Option Waiting}
    (h : WaitsFrom .expression TokenKind.sumOp? sum? u) (term : Derives .term v e) :
    Derives .expression (u ++ v) (complete sum? e) := by
  cases sum? with
  | none =>
    cases h
    exact .term term
  | some waiting =>
    obtain ⟨x, t, rfl, left, operator⟩ := h
    simpa [complete, join, List.append_assoc] using Derives.sum left operator term

theorem StateFrom.ofOperand {pending : Pending} {groups : List Open}
    (rest : GroupsFrom groups u) (wait : PendingFrom pending v)
    (primary : Derives .primary w e) : StateFrom (.ofOperand pending e groups) (u ++ v ++ w) := by
  cases wait with
  | mk sum product signs =>
    have term := product.term (signs.factor primary)
    simpa [State.ofOperand, List.append_assoc] using StateFrom.haveTerm rest sum term

/-- **A move keeps what the state stands for**, with the token added. -/
theorem Moves.stateFrom (move : Moves state token state') (h : StateFrom state w) :
    StateFrom state' (w ++ [token]) := by
  cases move with
  | number s x => cases h with
    | needOperand rest wait => exact .ofOperand rest wait (.number s x)
  | opens s => cases h with
    | needOperand rest wait =>
      simpa using StateFrom.needOperand (.cons s rest wait) .none
  | sign hsign => cases h with
    | needOperand rest wait => cases wait with
      | mk sum product signs =>
        have wait' := PendingFrom.mk sum product (signs.addSign hsign)
        simpa [List.append_assoc] using StateFrom.needOperand rest wait'
  | @sum sum? e _ _ op hop => cases h with
    | @haveTerm _ _ _ u v w rest sum term =>
      have sum' : WaitsFrom .expression TokenKind.sumOp? (some ⟨complete sum? e, op⟩)
          (v ++ w ++ [token]) := ⟨v ++ w, token, rfl, sum.expression term, hop⟩
      have wait := PendingFrom.mk sum' (.nil _ _) .nil
      simpa [List.append_assoc] using StateFrom.needOperand rest wait
  | @product _ e _ _ op hop => cases h with
    | @haveTerm _ _ _ u v w rest sum term =>
      have product' : WaitsFrom .term TokenKind.productOp? (some ⟨e, op⟩) (w ++ [token]) :=
        ⟨w, token, rfl, term, hop⟩
      have wait := PendingFrom.mk sum product' .nil
      simpa [List.append_assoc] using StateFrom.needOperand rest wait
  | @closes _ _ paren _ _ s => cases h with
    | haveTerm rest sum term => cases rest with
      | cons _ rest wait =>
        have primary := Derives.group paren s (sum.expression term)
        simpa [List.append_assoc] using StateFrom.ofOperand rest wait primary

theorem Walks.stateFrom (walk : Walks maxDepth state v state') (h : StateFrom state u) :
    StateFrom state' (u ++ v) := by
  induction walk generalizing u with
  | nil => simpa using h
  | cons _ move _ ih => simpa using ih (move.stateFrom h)

/-! ## Every phrase is walked through -/

/-- With `groups` open, tokens may be read without nesting too deep. -/
def RoomFor (maxDepth : Nat) (groups : List Open) (w : List Token) : Prop :=
  ∀ q, q <+: w → groups.length + nesting q ≤ maxDepth

theorem RoomFor.length_le {groups : List Open} (h : RoomFor maxDepth groups w) :
    groups.length ≤ maxDepth := by
  have := h [] List.nil_prefix
  simpa using this

theorem RoomFor.left {groups : List Open} (h : RoomFor maxDepth groups (u ++ v)) :
    RoomFor maxDepth groups u :=
  (forall_prefix_append.1 h).1

theorem RoomFor.right {groups : List Open} (h : RoomFor maxDepth groups (u ++ v))
    (hu : nesting u = 0) : RoomFor maxDepth groups v := by
  intro q hq
  have := (forall_prefix_append.1 h).2 q hq
  rwa [nesting_append, hu, Int.zero_add] at this

theorem RoomFor.after {groups : List Open} (h : RoomFor maxDepth groups (u ++ token :: v))
    (hu : nesting u = 0) (ht : token.kind.turn = 0) : RoomFor maxDepth groups v := by
  have h' : RoomFor maxDepth groups ([token] ++ v) := h.right hu
  exact h'.right (by simp [ht])

theorem RoomFor.inside {groups : List Open} {pending : Pending} {s : Span}
    (h : RoomFor maxDepth groups (⟨.leftParen, s⟩ :: w ++ v)) :
    RoomFor maxDepth (⟨s, pending⟩ :: groups) w := by
  intro q hq
  have := (forall_prefix_cons.1 h.left).2 q hq
  simp only [nesting_cons, TokenKind.turn_leftParen] at this
  simp only [List.length_cons]
  omega

/-- What walking through a phrase does to a state, with `groups` open. -/
def WalksThrough (maxDepth : Nat) (groups : List Open) :
    Phrase → List Token → Expr → Prop
  | .primary, w, e => ∀ pending,
    Walks maxDepth (.needOperand pending groups) w (.ofOperand pending e groups)
  | .factor, w, e => ∀ sum? product?,
    Walks maxDepth (.needOperand ⟨sum?, product?, none⟩ groups) w
      (.haveTerm sum? (complete product? e) groups)
  | .term, w, e => ∀ sum?,
    Walks maxDepth (.needOperand ⟨sum?, none, none⟩ groups) w (.haveTerm sum? e groups)
  | .expression, w, e => ∃ sum? term, complete sum? term = e ∧
    Walks maxDepth (.needOperand .none groups) w (.haveTerm sum? term groups)

theorem walks_signs (sum? product? : Option Waiting) {groups : List Open} (start : Span)
    (odd : Bool) (hdepth : groups.length ≤ maxDepth) {signs : List Token}
    (run : ∀ t ∈ signs, t.kind.isSign = true) :
    Walks maxDepth (.needOperand ⟨sum?, product?, some ⟨start, odd⟩⟩ groups) signs
      (.needOperand ⟨sum?, product?, some ⟨start, odd ^^ negates signs⟩⟩ groups) := by
  induction signs generalizing odd with
  | nil => simpa using Walks.nil _
  | cons t ts ih =>
    have hsign := run t (by simp)
    have walk := ih (odd ^^ (t.kind == .minus)) fun x hx => run x (by simp [hx])
    rw [negates_cons, ← Bool.xor_assoc]
    exact .cons (State.opening?_eq_none hdepth (TokenKind.ne_of_isSign hsign rfl)) (.sign hsign)
      walk

/-- A run of signs and the primary after it are walked through together. -/
theorem WalksThrough.signed {groups : List Open} {sign : Token} {signs : List Token}
    (hdepth : groups.length ≤ maxDepth) (run : ∀ t ∈ sign :: signs, t.kind.isSign = true)
    (primary : WalksThrough maxDepth groups .primary w e) :
    WalksThrough maxDepth groups .factor (sign :: signs ++ w)
      (Expr.signed (some ⟨sign.span, negates (sign :: signs)⟩) e) := by
  intro sum? product?
  have hsign := run sign (by simp)
  have walk := walks_signs sum? product? sign.span (sign.kind == .minus) hdepth
    fun x hx => run x (List.mem_cons_of_mem _ hx)
  rw [negates_cons]
  exact .cons (State.opening?_eq_none hdepth (TokenKind.ne_of_isSign hsign rfl)) (.sign hsign)
    (walk.append (primary _))

theorem WalksThrough.group {groups : List Open} {s s' : Span}
    (hdepth : groups.length ≤ maxDepth)
    (inner : ∀ pending, WalksThrough maxDepth (⟨s, pending⟩ :: groups) .expression w e) :
    WalksThrough maxDepth groups .primary (⟨.leftParen, s⟩ :: w ++ [⟨.rightParen, s'⟩])
      (.group (s.merge s') e) := by
  intro pending
  obtain ⟨sum?, term, rfl, walk⟩ := inner pending
  have opens : Walks maxDepth (.needOperand pending groups) [⟨.leftParen, s⟩]
      (.needOperand .none (⟨s, pending⟩ :: groups)) :=
    .single (State.opening?_eq_none hdepth (by simp)) (.opens s)
  have closes : Walks maxDepth (.haveTerm sum? term (⟨s, pending⟩ :: groups))
      [⟨.rightParen, s'⟩] (.ofOperand pending (.group (s.merge s') (complete sum? term)) groups) :=
    .single rfl (.closes s')
  exact opens.append (walk.append closes)

/-- **Every phrase is walked through**, if its groups are not nested deeper
than the open ones leave room for. -/
theorem Derives.walks {phrase : Phrase} (h : Derives phrase w e) {groups : List Open}
    (room : RoomFor maxDepth groups w) : WalksThrough maxDepth groups phrase w e := by
  induction h generalizing groups with
  | number s x =>
    intro pending
    exact .single (State.opening?_eq_none room.length_le (by simp)) (.number s x)
  | group s s' inner ih => exact .group room.length_le fun pending => ih room.inside
  | unsigned _ ih =>
    intro sum? product?
    exact ih room _
  | kept run even _ ih =>
    have walks := (ih (room.right (nesting_of_signs run))).signed room.length_le run
    rw [even] at walks
    exact walks
  | negated run odd _ ih =>
    have walks := (ih (room.right (nesting_of_signs run))).signed room.length_le run
    rw [odd] at walks
    exact walks
  | factor _ ih =>
    intro sum?
    exact ih room sum? none
  | @product u v t l r op left operator right ihl ihr =>
    intro sum?
    have walkl := ihl room.left sum?
    have walkr := ihr (room.after left.nesting_eq (TokenKind.turn_of_productOp? operator))
      sum? (some ⟨l, op⟩)
    exact walkl.append (.cons rfl (.product operator) walkr)
  | term _ ih => exact ⟨none, _, rfl, ih room none⟩
  | @sum u v t l r op left operator right ihl ihr =>
    -- the left side ends as a sum that is complete, and waits again
    obtain ⟨sum?, term, rfl, walkl⟩ := ihl room.left
    have walkr := ihr (room.after left.nesting_eq (TokenKind.turn_of_sumOp? operator))
      (some ⟨complete sum? term, op⟩)
    exact ⟨some ⟨complete sum? term, op⟩, r, rfl,
      walkl.append (.cons rfl (.sum operator) walkr)⟩

/-! ## Reading -/

/-- A list with an end of the text is cut at the first one. -/
theorem exists_eq_beforeEnd_append (hend : ∃ t ∈ tokens, t.kind = .endOfInput) :
    ∃ t rest, t.kind = .endOfInput ∧ tokens = beforeEnd tokens ++ t :: rest := by
  induction tokens with
  | nil => simp at hend
  | cons token rest ih =>
    by_cases htoken : token.kind = .endOfInput
    · exact ⟨token, rest, htoken, by simp [beforeEnd, htoken]⟩
    · obtain ⟨t, rest', ht, heq⟩ := ih (by simpa [htoken] using hend)
      refine ⟨t, rest', ht, ?_⟩
      rw [beforeEnd, List.takeWhile_cons_of_pos (by simpa using htoken), List.cons_append]
      exact congrArg _ heq

/-- **What is read is an expression**: a tree that reading gives is the tree
of the tokens before the first end of the text. -/
theorem derives_of_read (h : read maxDepth tokens = .ok e) :
    Derives .expression (beforeEnd tokens) e ∧ NestedWithin maxDepth (beforeEnd tokens) := by
  obtain ⟨w, t, rest, sum?, term, rfl, hend, walk, rfl⟩ := read_eq_ok_iff_walks.1 h
  rw [walk.beforeEnd_eq hend]
  refine ⟨?_, walk.nestedWithin⟩
  have hstate := walk.stateFrom .start
  rw [List.nil_append] at hstate
  cases hstate with
  | haveTerm rest sum term => cases rest with
    | nil => exact sum.expression term

/-- **Every expression is read**, if its groups are not nested too deep and
the text ends after it. -/
theorem read_of_derives (hend : ∃ t ∈ tokens, t.kind = .endOfInput)
    (h : Derives .expression (beforeEnd tokens) e)
    (hdepth : NestedWithin maxDepth (beforeEnd tokens)) : read maxDepth tokens = .ok e := by
  obtain ⟨t, rest, ht, heq⟩ := exists_eq_beforeEnd_append hend
  have room : RoomFor maxDepth [] (beforeEnd tokens) := by
    intro q hq
    simpa using hdepth q hq
  obtain ⟨sum?, term, rfl, walk⟩ := h.walks room
  exact read_eq_ok_iff_walks.2 ⟨_, t, rest, sum?, term, heq, ht, walk, rfl⟩

end Abacus.Expr
