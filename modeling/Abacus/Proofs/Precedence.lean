import Abacus.Proofs.StepBudget
import Abacus.Proofs.Tiers

/-!
# Precedence

A tree has the value that its tokens reduce to. The two go in different
orders: a tree is evaluated operand by operand, the reduction applies all
products before any sum. `StandsFor` says, for each kind of phrase, what
its tokens do to the reduction of a longer list that begins with them; it
is this that goes through an induction over the grammar.
-/

namespace Abacus

theorem TokenKind.binaryOp?_of_sumOp? {k : TokenKind} {op : BinaryOp}
    (h : k.sumOp? = some op) : k.binaryOp? = some op ∧ op.isProduct = false ∧ op.isSum = true := by
  cases k <;> cases h <;> exact ⟨rfl, rfl, rfl⟩

theorem TokenKind.binaryOp?_of_productOp? {k : TokenKind} {op : BinaryOp}
    (h : k.productOp? = some op) : k.binaryOp? = some op ∧ op.isProduct = true := by
  cases k <;> cases h <;> exact ⟨rfl, rfl⟩

theorem TokenKind.ne_paren_of_binaryOp? {k : TokenKind} {op : BinaryOp}
    (h : k.binaryOp? = some op) : k ≠ .leftParen ∧ k ≠ .rightParen := by
  cases k <;> cases h <;> simp

/-! ## Values of trees -/

namespace Expr

variable {e : Expr}

/-- The value of a tree, if it has one. -/
def value? (e : Expr) : Option Double :=
  (value e).toOption

theorem value?_eq_some {x : Double} : value? e = some x ↔ value e = .ok x := by
  rw [value?]
  cases value e <;> simp [Except.toOption]

theorem value?_literal (s : Span) (x : Double) :
    value? (literal s x) = if x.isFinite then some x else none := by
  rw [value?, value, literalValue]
  split <;> rfl

theorem value?_negate (s : Span) (e : Expr) :
    value? (negate s e) = (value? e).map Double.neg := by
  rw [value?, value?, value]
  cases value e <;> rfl

theorem value?_binary (s : Span) (op : BinaryOp) (left right : Expr) :
    value? (binary s op left right) =
      (value? left).bind fun x => (value? right).bind fun y => op.applied? x y := by
  rw [value?, value?, value?, value]
  cases value left with
  | error => rfl
  | ok x => cases value right with
    | error => rfl
    | ok y =>
      show ((op.apply x y).mapError _).toOption = (op.apply x y).toOption
      cases op.apply x y <;> rfl

theorem value?_withSpan (s : Span) (e : Expr) : value? (e.withSpan s) = value? e := by
  cases e with
  | literal => rw [withSpan, value?_literal, value?_literal]
  | negate => rw [withSpan, value?_negate, value?_negate]
  | group => rfl
  | binary => rw [withSpan, value?_binary, value?_binary]

end Expr

namespace Tiers

variable {u v w : List TokenKind} {t : TokenKind} {op : BinaryOp} {x? y? : Option Double}

/-! ## Operands -/

theorem others?_cons (h : t.binaryOp? = some op) (ts : List TokenKind) :
    others? (t :: ts) =
      (operands? false ts).map fun chain => (op, chain.first) :: chain.rest := by
  rw [others?, h]
  cases operands? false ts <;> rfl

/-- A run of signs negates the operand after it if it holds an odd number
of `-`. -/
theorem operands?_signs {signs : List Token} (run : ∀ t ∈ signs, t.kind.isSign = true)
    (negative : Bool) (rest : List TokenKind) :
    operands? negative (signs.map (·.kind) ++ rest) =
      operands? (negative ^^ Expr.negates signs) rest := by
  induction signs generalizing negative with
  | nil => simp
  | cons t ts ih =>
    have hsign := run t (by simp)
    have ih := ih fun x hx => run x (by simp [hx])
    rw [Expr.negates_cons, ← Bool.xor_assoc, ← ih]
    obtain ⟨kind, s⟩ := t
    cases kind with
    | plus =>
      rw [List.map_cons, List.cons_append, operands?]
      exact congrArg (operands? · _) (Bool.xor_false negative).symm
    | minus =>
      rw [List.map_cons, List.cons_append, operands?]
      exact congrArg (operands? · _) (Bool.xor_true negative).symm
    | _ => cases hsign

/-! ## What a phrase stands for -/

/-- The reduction of the products of a list that begins with an operand. -/
def products? (tokens : List TokenKind) : Option Chain :=
  (operands? false tokens).bind fun chain => sweep? BinaryOp.isProduct chain.first chain.rest

/-- The reduction of the products and then of the sums. -/
def sums? (tokens : List TokenKind) : Option Chain :=
  (products? tokens).bind fun chain => sweep? BinaryOp.isSum chain.first chain.rest

/-- Nothing comes, or a sum goes on. -/
def Continues : List TokenKind → Prop
  | [] => True
  | t :: _ => ∃ op, t.sumOp? = some op

/-- What tokens without groups do as a phrase: whatever comes after them,
they are reduced like the value they stand for. -/
def StandsFor : Expr.Phrase → List TokenKind → Option Double → Prop
  | .primary, w, x? => ∃ x : Double, w = [.number x] ∧ x? = if x.isFinite then some x else none
  | .factor, w, x? => ∀ rest,
    operands? false (w ++ rest) = x?.bind fun x => (others? rest).map (Chain.mk x)
  | .term, w, x? => ∀ rest,
    products? (w ++ rest) = x?.bind fun x => (others? rest).bind (sweep? BinaryOp.isProduct x)
  | .expression, w, x? => ∀ rest, Continues rest →
    sums? (w ++ rest) = x?.bind fun x => (others? rest).bind fun others =>
      (sweep? BinaryOp.isProduct x others).bind fun chain =>
        sweep? BinaryOp.isSum chain.first chain.rest

theorem StandsFor.signed {signs : List Token} (run : ∀ t ∈ signs, t.kind.isSign = true)
    (h : StandsFor .primary w x?) :
    StandsFor .factor (signs.map (·.kind) ++ w)
      (if Expr.negates signs then x?.map Double.neg else x?) := by
  obtain ⟨x, rfl, rfl⟩ := h
  intro rest
  rw [List.append_assoc, operands?_signs run, Bool.false_xor, List.singleton_append, operands?]
  cases x.isFinite <;> cases Expr.negates signs <;> rfl

theorem StandsFor.term (h : StandsFor .factor w x?) : StandsFor .term w x? := by
  intro rest
  rw [products?, h]
  cases x? with
  | none => rfl
  | some x => cases others? rest <;> rfl

theorem StandsFor.product (h : StandsFor .term u x?) (operator : t.productOp? = some op)
    (h' : StandsFor .factor v y?) :
    StandsFor .term (u ++ t :: v)
      (x?.bind fun x => y?.bind fun y => op.applied? x y) := by
  intro rest
  obtain ⟨hop, hproduct⟩ := TokenKind.binaryOp?_of_productOp? operator
  rw [List.append_assoc, List.cons_append, h, others?_cons hop, h']
  cases x? with
  | none => rfl
  | some x => cases y? with
    | none => rfl
    | some y =>
      cases others? rest with
      | none =>
        show none = (op.applied? x y).bind fun _ => none
        cases op.applied? x y <;> rfl
      | some others =>
        -- the operator is the leftmost product
        show sweep? BinaryOp.isProduct x ((op, y) :: others) = _
        rw [sweep?_cons_of_tier hproduct]
        rfl

theorem StandsFor.expression (h : StandsFor .term w x?) : StandsFor .expression w x? := by
  intro rest _
  rw [sums?, h]
  cases x? with
  | none => rfl
  | some x => cases others? rest <;> rfl

/-- Before a sum the products that come do not touch the operand. -/
theorem exists_sweep?_of_continues {rest : List TokenKind}
    {others : List (BinaryOp × Double)} (hrest : Continues rest)
    (h : others? rest = some others) :
    ∃ others'? : Option (List (BinaryOp × Double)), ∀ x,
      sweep? BinaryOp.isProduct x others = others'?.map (Chain.mk x) := by
  cases rest with
  | nil =>
    cases h
    exact ⟨some [], fun x => rfl⟩
  | cons t ts =>
    obtain ⟨op, hsum⟩ := hrest
    obtain ⟨hop, hproduct, -⟩ := TokenKind.binaryOp?_of_sumOp? hsum
    rw [others?_cons hop] at h
    obtain ⟨chain, -, rfl⟩ := Option.map_eq_some_iff.1 h
    refine ⟨(sweep? BinaryOp.isProduct chain.first chain.rest).map
      fun chain => (op, chain.first) :: chain.rest, fun x => ?_⟩
    rw [sweep?_cons_of_not_tier hproduct, Option.map_map]
    rfl

theorem StandsFor.sum (h : StandsFor .expression u x?) (operator : t.sumOp? = some op)
    (h' : StandsFor .term v y?) :
    StandsFor .expression (u ++ t :: v)
      (x?.bind fun x => y?.bind fun y => op.applied? x y) := by
  intro rest hrest
  obtain ⟨hop, hproduct, hsum⟩ := TokenKind.binaryOp?_of_sumOp? operator
  -- the products on the right of the operator are reduced before it
  have hright : ∀ x, ((others? (t :: (v ++ rest))).bind fun others =>
      (sweep? BinaryOp.isProduct x others).bind fun chain =>
        sweep? BinaryOp.isSum chain.first chain.rest) =
      (products? (v ++ rest)).bind fun chain =>
        (op.applied? x chain.first).bind fun z => sweep? BinaryOp.isSum z chain.rest := by
    intro x
    rw [others?_cons hop, products?]
    cases operands? false (v ++ rest) with
    | none => rfl
    | some chain =>
      show (sweep? BinaryOp.isProduct x ((op, chain.first) :: chain.rest)).bind _ = _
      rw [sweep?_cons_of_not_tier hproduct]
      show _ = (sweep? BinaryOp.isProduct chain.first chain.rest).bind _
      cases sweep? BinaryOp.isProduct chain.first chain.rest with
      | none => rfl
      | some chain' => exact sweep?_cons_of_tier hsum
  -- the left side is an expression that goes on with this sum
  rw [List.append_assoc, List.cons_append, h (t :: (v ++ rest)) ⟨op, operator⟩]
  simp only [hright]
  rw [h']
  cases x? with
  | none => rfl
  | some x => cases y? with
    | none => rfl
    | some y => cases hothers : others? rest with
      | none => cases op.applied? x y <;> simp
      | some others =>
        -- what comes after is reduced alike whatever stands on its left
        obtain ⟨others'?, hsweep⟩ := exists_sweep?_of_continues hrest hothers
        simp only [Option.bind_some, hsweep]
        cases others'? with
        | none => cases op.applied? x y <;> rfl
        | some others' => rfl

/-- An expression without groups reduces to the value it stands for. -/
theorem StandsFor.flatValue?_eq (h : StandsFor .expression w x?) : flatValue? w = x? := by
  have hsums : sums? w = x?.map fun x => ⟨x, []⟩ := by
    have := h [] trivial
    rw [List.append_nil] at this
    rw [this]
    cases x? <;> rfl
  have hflat : flatValue? w =
      (sums? w).bind fun chain => if chain.rest = [] then some chain.first else none := by
    rw [flatValue?, sums?, products?]
    simp only [reduceTier?_eq_sweep?, Option.bind_eq_bind, Option.bind_assoc]
  rw [hflat, hsums]
  cases x? <;> rfl

/-! ## Groups -/

theorem ungrouped?_cons (ht : t ≠ .rightParen) (before rest : List TokenKind) :
    ungrouped? before (t :: rest) = ungrouped? (t :: before) rest := by
  rw [ungrouped?]
  exact ht

/-- What becomes of the tokens of a phrase: with a number in place of each
group they stand for its value, or else a group in them has no value. -/
inductive Replaced (phrase : Expr.Phrase) (w : List TokenKind) (x? : Option Double) : Prop
  | stuck (missing : x? = none) (fails : ∀ before rest, ungrouped? before (w ++ rest) = none)
  | plain {w' : List TokenKind} (closed : ∀ t ∈ w', t ≠ .leftParen)
      (replaces : ∀ before rest,
        ungrouped? before (w ++ rest) = ungrouped? (w'.reverse ++ before) rest)
      (stands : StandsFor phrase w' x?)

theorem Replaced.map {phrase phrase' : Expr.Phrase} (h : Replaced phrase w x?)
    (hstands : ∀ w', StandsFor phrase w' x? → StandsFor phrase' w' x?) :
    Replaced phrase' w x? := by
  cases h with
  | stuck missing fails => exact .stuck missing fails
  | plain closed replaces stands => exact .plain closed replaces (hstands _ stands)

theorem Replaced.number (x : Double) :
    Replaced .primary [.number x] (if x.isFinite then some x else none) := by
  have stands : StandsFor .primary [.number x] (if x.isFinite then some x else none) :=
    ⟨x, rfl, rfl⟩
  refine .plain (by simp) (fun before rest => ?_) stands
  exact ungrouped?_cons (by simp) before rest

theorem Replaced.signed {signs : List Token} (run : ∀ t ∈ signs, t.kind.isSign = true)
    (h : Replaced .primary w x?) :
    Replaced .factor (signs.map (·.kind) ++ w)
      (if Expr.negates signs then x?.map Double.neg else x?) := by
  have hkinds : ∀ t ∈ signs.map (·.kind), t ≠ .leftParen ∧ t ≠ .rightParen := by
    intro t ht
    obtain ⟨token, htoken, rfl⟩ := List.mem_map.1 ht
    have hsign := run token htoken
    exact ⟨TokenKind.ne_of_isSign hsign rfl, TokenKind.ne_of_isSign hsign rfl⟩
  have hsigns : ∀ before rest, ungrouped? before (signs.map (·.kind) ++ rest) =
      ungrouped? ((signs.map (·.kind)).reverse ++ before) rest := by
    generalize signs.map (·.kind) = kinds at hkinds
    intro before rest
    induction kinds generalizing before with
    | nil => rfl
    | cons t ts ih =>
      rw [List.cons_append, ungrouped?_cons (hkinds t (by simp)).2,
        ih fun x hx => hkinds x (by simp [hx])]
      simp
  cases h with
  | stuck missing fails =>
    refine .stuck (by simp [missing]) fun before rest => ?_
    rw [List.append_assoc, hsigns, fails]
  | plain closed replaces stands =>
    refine .plain ?_ (fun before rest => ?_) (stands.signed run)
    · intro t ht
      rcases List.mem_append.1 ht with ht | ht
      · exact (hkinds t ht).1
      · exact closed t ht
    · rw [List.append_assoc, hsigns, replaces]
      simp

theorem Replaced.binary {phrase phrase' : Expr.Phrase}
    (h : Replaced phrase u x?) (operator : t.binaryOp? = some op) (h' : Replaced phrase' v y?)
    (hstands : ∀ u' v', StandsFor phrase u' x? → StandsFor phrase' v' y? →
      StandsFor phrase (u' ++ t :: v') (x?.bind fun x => y?.bind fun y => op.applied? x y)) :
    Replaced phrase (u ++ t :: v) (x?.bind fun x => y?.bind fun y => op.applied? x y) := by
  have ht := TokenKind.ne_paren_of_binaryOp? operator
  cases h with
  | stuck missing fails =>
    refine .stuck (by rw [missing]; rfl) fun before rest => ?_
    rw [List.append_assoc, fails]
  | plain closed replaces stands => cases h' with
    | stuck missing fails =>
      refine .stuck (by rw [missing]; cases x? <;> rfl) fun before rest => ?_
      rw [List.append_assoc, replaces, List.cons_append, ungrouped?_cons ht.2, fails]
    | plain closed' replaces' stands' =>
      refine .plain ?_ (fun before rest => ?_) (hstands _ _ stands stands')
      · intro s hs
        rcases List.mem_append.1 hs with hs | hs
        · exact closed s hs
        · rcases List.mem_cons.1 hs with rfl | hs
          · exact ht.1
          · exact closed' s hs
      · rw [List.append_assoc, replaces, List.cons_append, ungrouped?_cons ht.2, replaces']
        simp

/-- A group is replaced by its value once it is closed. -/
theorem Replaced.group (h : Replaced .expression w x?)
    (hfinite : ∀ x, x? = some x → x.isFinite = true) :
    Replaced .primary (.leftParen :: w ++ [.rightParen]) x? := by
  have hopen : ∀ before rest, ungrouped? before (.leftParen :: w ++ [.rightParen] ++ rest) =
      ungrouped? (.leftParen :: before) (w ++ .rightParen :: rest) := by
    intro before rest
    rw [List.append_assoc, List.cons_append, ungrouped?_cons (by simp)]
    rfl
  cases h with
  | stuck missing fails =>
    refine .stuck missing fun before rest => ?_
    rw [hopen, fails]
  | @plain w' closed replaces stands =>
    -- the nearest open group begins before the tokens of this one
    have hclose : ∀ before rest, ungrouped? before (.leftParen :: w ++ [.rightParen] ++ rest) =
        x?.bind fun x => ungrouped? (.number x :: before) rest := by
      intro before rest
      have hplain : ∀ t ∈ w'.reverse, (t != .leftParen) = true := by
        intro t ht
        simpa using closed t (List.mem_reverse.1 ht)
      rw [hopen, replaces, ungrouped?, List.dropWhile_append_of_pos hplain,
        List.takeWhile_append_of_pos hplain]
      simp [stands.flatValue?_eq]
    cases x? with
    | none => exact .stuck rfl fun before rest => hclose before rest
    | some x =>
      have stands' : StandsFor .primary [.number x] (some x) :=
        ⟨x, rfl, by rw [if_pos (hfinite x rfl)]⟩
      refine .plain (by simp) (fun before rest => ?_) stands'
      exact hclose before rest

/-! ## Trees -/

/-- **What becomes of the tokens of a phrase**, by induction over the
grammar. -/
theorem replaced_of_derives {phrase : Expr.Phrase} {w : List Token} {e : Expr}
    (h : Expr.Derives phrase w e) : Replaced phrase (w.map (·.kind)) e.value? := by
  induction h with
  | number s x =>
    rw [Expr.value?_literal]
    exact .number x
  | @group w e s s' inner ih =>
    have hfinite : ∀ x, e.value? = some x → x.isFinite = true :=
      fun x hx => Expr.isFinite_of_value (Expr.value?_eq_some.1 hx)
    have := ih.group hfinite
    rw [List.map_append, List.map_cons]
    exact this
  | unsigned _ ih =>
    have run : ∀ t ∈ ([] : List Token), t.kind.isSign = true := by simp
    simpa using ih.signed run
  | kept run even _ ih =>
    have := ih.signed run
    rwa [even, ← List.map_append, ← Expr.value?_withSpan] at this
  | negated run odd _ ih =>
    have := ih.signed run
    rwa [odd, ← List.map_append, if_pos rfl, ← Expr.value?_negate] at this
  | factor _ ih => exact ih.map fun _ stands => stands.term
  | @product u v t l r op left operator right ihl ihr =>
    rw [Expr.value?_binary, List.map_append, List.map_cons]
    have hop := (TokenKind.binaryOp?_of_productOp? operator).1
    exact ihl.binary hop ihr fun _ _ stands stands' => stands.product operator stands'
  | term _ ih => exact ih.map fun _ stands => stands.expression
  | @sum u v t l r op left operator right ihl ihr =>
    rw [Expr.value?_binary, List.map_append, List.map_cons]
    have hop := (TokenKind.binaryOp?_of_sumOp? operator).1
    exact ihl.binary hop ihr fun _ _ stands stands' => stands.sum operator stands'

/-- The tokens of an expression reduce to the value of its tree. -/
theorem value?_of_derives {w : List Token} {e : Expr} (h : Expr.Derives .expression w e) :
    value? (w.map (·.kind)) = e.value? := by
  rw [value?]
  cases replaced_of_derives h with
  | stuck missing fails =>
    have := fails [] []
    rw [List.append_nil] at this
    rw [this, missing]
    rfl
  | @plain w' closed replaces stands =>
    have := replaces [] []
    rw [List.append_nil, List.append_nil, ungrouped?, List.reverse_reverse] at this
    rw [this]
    exact stands.flatValue?_eq

end Tiers

/-- **A tree has the value that its tokens reduce to.** For every list of
tokens that has a tree, evaluating the tree on an unlimited meter gives a
number exactly when reducing the tokens before the end of the text gives
it: groups first, then signs, then the leftmost product as long as there is
one, then the leftmost sum. -/
theorem evaluate_eq_ok_iff_value? {limits : Limits} {tokens : List Token} {e : Expr}
    (h : Expr.ofTokens limits tokens = .ok e) (v : Double) :
    (Meter.evaluate ⟨0, Meter.unlimited⟩ e).1 = .ok v ↔
      Tiers.value? ((Expr.beforeEnd tokens).map (·.kind)) = some v := by
  have derives := (Expr.accepted_of_ofTokens h).derives
  rw [Expr.evaluate_unlimited h, Tiers.value?_of_derives derives, Expr.value?_eq_some]

/-- `3--2*(4-5)` reduces to one. -/
theorem value?_three_plus_negated_product :
    let token := fun kind col => Token.mk kind (.point ⟨1, col⟩)
    let number := fun n => TokenKind.number (.ofInt n)
    let tokens := [token (number 3) 1, token .minus 2, token .minus 3, token (number 2) 4,
      token .star 5, token .leftParen 6, token (number 4) 7, token .minus 8,
      token (number 5) 9, token .rightParen 10, token .endOfInput 11]
    ∃ e, Expr.ofTokens .standard tokens = .ok e ∧
      Tiers.value? ((Expr.beforeEnd tokens).map (·.kind)) = some (.ofInt 1) := by
  intro token number tokens
  obtain ⟨e, h, hvalue⟩ : ∃ e, Expr.ofTokens .standard tokens = .ok e ∧
      e.value? = some (.ofInt 1) := ⟨_, rfl, by decide +kernel⟩
  refine ⟨e, h, (evaluate_eq_ok_iff_value? h _).1 ?_⟩
  rw [Expr.evaluate_unlimited h]
  exact Expr.value?_eq_some.1 hvalue

end Abacus
