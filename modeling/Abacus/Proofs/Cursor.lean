import Abacus.Proofs.Grammar

/-!
# Cursor

Tokens read another way: by recursive descent, with one function for each
kind of phrase, over a cursor in the list. Nothing guards the end of the
list. Past it the cursor shows the last token again, and a function that
takes it takes it once more. So whether a descent ends is a question of its
own. Its functions are given fuel, which each call uses up by one, and a
descent ends when with enough fuel it comes to something.
-/

namespace Abacus

/-! ## Cursors -/

/-- A place in a list of tokens, and the faults that were reported. -/
structure Cursor where
  /-- The tokens taken so far, the last first; past the end of the list a
  token is taken again each time. -/
  taken : List Token
  rest : List Token
  faults : List Fault
deriving DecidableEq

namespace Cursor

/-- The cursor before a list of tokens. -/
def start (tokens : List Token) : Cursor := ⟨[], tokens, []⟩

/-- The token at the cursor; past the end the last one. -/
def peek? (p : Cursor) : Option Token :=
  p.rest.head?.or p.taken.head?

/-- What the token at the cursor is. -/
def kind (p : Cursor) : TokenKind :=
  (p.peek?.map Token.kind).getD .endOfInput

/-- Where the token at the cursor stands. -/
def span (p : Cursor) : Span :=
  (p.peek?.map Token.span).getD (.point .origin)

/-- What the token before the cursor is. -/
def previous? (p : Cursor) : Option TokenKind :=
  p.taken.head?.map Token.kind

/-- The cursor after its token is taken. -/
def advanced (p : Cursor) : Cursor :=
  match p.peek? with
  | none => p
  | some token => { p with taken := token :: p.taken, rest := p.rest.tail }

/-- The cursor after a report. -/
def reporting (p : Cursor) (fault : Fault) : Cursor :=
  { p with faults := p.faults ++ [fault] }

variable {p : Cursor} {token : Token} {rest : List Token}

/-! Before the end the token at the cursor is the first of the rest. -/

theorem kind_eq (h : p.rest = token :: rest) : p.kind = token.kind := by
  simp [kind, peek?, h]

theorem span_eq (h : p.rest = token :: rest) : p.span = token.span := by
  simp [span, peek?, h]

theorem advanced_eq (h : p.rest = token :: rest) :
    p.advanced = { p with taken := token :: p.taken, rest := rest } := by
  simp [advanced, peek?, h]

/-- To take a token before the end leaves fewer. -/
theorem length_advanced_lt (h : p.rest = token :: rest) :
    p.advanced.rest.length < p.rest.length := by
  rw [advanced_eq h, h]
  exact Nat.lt_succ_self _

/-! At the end it is the one that was taken last, if there is one. -/

theorem kind_of_empty (h : p.rest = []) (htaken : p.taken = []) : p.kind = .endOfInput := by
  simp [kind, peek?, h, htaken]

theorem peek?_of_end (h : p.rest = []) (hlast : p.taken = token :: rest) :
    p.peek? = some token := by
  simp [peek?, h, hlast]

theorem kind_of_end (h : p.rest = []) (hlast : p.taken = token :: rest) :
    p.kind = token.kind := by
  simp [kind, peek?_of_end h hlast]

theorem span_of_end (h : p.rest = []) (hlast : p.taken = token :: rest) :
    p.span = token.span := by
  simp [span, peek?_of_end h hlast]

theorem previous?_of_start (htaken : p.taken = []) : p.previous? = none := by
  simp [previous?, htaken]

theorem previous?_eq (hlast : p.taken = token :: rest) : p.previous? = some token.kind := by
  simp [previous?, hlast]

end Cursor

/-! ## Computations -/

/-- A computation on a cursor. It may end without a result, after a report,
and it may run out of fuel. -/
abbrev Descent := OptionT (StateT Cursor Option)

namespace Descent

variable {α β : Type}

/-- What a computation comes to at a cursor: nothing if it runs out of fuel,
else the result, if there is one, and the cursor it leaves. -/
def runOn (c : Descent α) (p : Cursor) : Option (Option α × Cursor) :=
  c.run.run p

/-- No fuel is left. -/
def exhausted : Descent α :=
  OptionT.lift (StateT.lift none)

/-- Takes the token at the cursor. -/
def advance : Descent Span := do
  let p ← get
  set p.advanced
  return p.span

/-- Reports a fault and ends. -/
def reject (cause : Cause) (span : Span) : Descent α := do
  modify (·.reporting ⟨cause, span⟩)
  failure

theorem runOn_pure (a : α) (p : Cursor) : runOn (pure a) p = some (some a, p) := rfl

/-- A computation goes on where the one before it ended, if that has a
result. -/
theorem runOn_bind (c : Descent α) (f : α → Descent β) (p : Cursor) :
    runOn (c >>= f) p =
      match runOn c p with
      | none => none
      | some (none, q) => some (none, q)
      | some (some a, q) => runOn (f a) q := by
  show (c.run.run p >>= fun r => _) = _
  simp only [runOn]
  rcases c.run.run p with _ | ⟨_ | a, q⟩ <;> rfl

theorem runOn_get (f : Cursor → Descent α) (p : Cursor) :
    runOn (get >>= f) p = runOn (f p) p := rfl

theorem runOn_advance (f : Span → Descent α) (p : Cursor) :
    runOn (advance >>= f) p = runOn (f p.span) p.advanced := rfl

theorem runOn_reject (cause : Cause) (span : Span) (p : Cursor) :
    runOn (reject cause span : Descent α) p = some (none, p.reporting ⟨cause, span⟩) := rfl

/-! ## The descent -/

/-- Takes a run of signs, and counts them and the `-` among them. -/
def signs : (fuel count minuses : Nat) → Descent (Nat × Nat)
  | 0, _, _ => exhausted
  | fuel + 1, count, minuses => do
    let p ← get
    if p.kind.isSign then
      let _ ← advance
      signs fuel (count + 1) (if p.kind == .minus then minuses + 1 else minuses)
    else return (count, minuses)

mutual

/-- A chain of terms. The groups that are open are counted in `depth`. -/
def expression (maxDepth : Nat) : (fuel depth : Nat) → Descent Expr
  | 0, _ => exhausted
  | fuel + 1, depth => do
    let left ← term maxDepth fuel depth
    sums maxDepth fuel depth left

/-- What a chain of terms goes on with. -/
def sums (maxDepth : Nat) : (fuel depth : Nat) → (left : Expr) → Descent Expr
  | 0, _, _ => exhausted
  | fuel + 1, depth, left => do
    let p ← get
    match p.kind.sumOp? with
    | none => return left
    | some op =>
      let _ ← advance
      let right ← term maxDepth fuel depth
      sums maxDepth fuel depth (.join left op right)

/-- A chain of factors. -/
def term (maxDepth : Nat) : (fuel depth : Nat) → Descent Expr
  | 0, _ => exhausted
  | fuel + 1, depth => do
    let left ← factor maxDepth fuel depth
    products maxDepth fuel depth left

/-- What a chain of factors goes on with. -/
def products (maxDepth : Nat) : (fuel depth : Nat) → (left : Expr) → Descent Expr
  | 0, _, _ => exhausted
  | fuel + 1, depth, left => do
    let p ← get
    match p.kind.productOp? with
    | none => return left
    | some op =>
      let _ ← advance
      let right ← factor maxDepth fuel depth
      products maxDepth fuel depth (.join left op right)

/-- A run of signs and what it stands before. -/
def factor (maxDepth : Nat) : (fuel depth : Nat) → Descent Expr
  | 0, _ => exhausted
  | fuel + 1, depth => do
    let p ← get
    let (count, minuses) ← signs fuel 0 0
    let operand ← primary maxDepth fuel depth
    if count = 0 then return operand
    else
      let span := p.span.merge operand.span
      return if minuses % 2 = 1 then .negate span operand else operand.withSpan span

/-- A number or a group. -/
def primary (maxDepth : Nat) : (fuel depth : Nat) → Descent Expr
  | 0, _ => exhausted
  | fuel + 1, depth => do
    let p ← get
    match p.kind with
    | .number value => return .literal (← advance) value
    | .leftParen => group maxDepth fuel depth
    | found => reject (.missingOperand p.previous? found) p.span

/-- An expression in parentheses. -/
def group (maxDepth : Nat) : (fuel depth : Nat) → Descent Expr
  | 0, _ => exhausted
  | fuel + 1, depth => do
    let paren ← advance
    let p ← get
    if p.kind = .rightParen then reject .emptyParentheses (paren.merge p.span)
    else if maxDepth < depth + 1 then reject (.nestedTooDeep maxDepth) paren
    else
      let inner ← expression maxDepth fuel (depth + 1)
      let q ← get
      if q.kind = .rightParen then return .group (paren.merge (← advance)) inner
      else reject (.missingClose q.kind) q.span

end

/-- An expression that the text ends after. -/
def whole (maxDepth fuel : Nat) : Descent Expr := do
  let e ← expression maxDepth fuel 0
  let p ← get
  if p.kind = .endOfInput then return e
  else reject (.trailing p.kind) p.span

/-- Reads a list of tokens, once the checks on the whole list have let it
through. -/
def parse (limits : Limits) (tokens : List Token) (fuel : Nat) : Descent Expr :=
  match Expr.tooLong? limits.clamped.maxTokens tokens with
  | some fault => reject fault.cause fault.span
  | none =>
    match Expr.unbalanced? [] tokens with
    | some fault => reject fault.cause fault.span
    | none => do
      let p ← get
      if p.kind = .endOfInput then reject .emptyExpression p.span
      else whole limits.clamped.maxDepth fuel

/-! ## Ends -/

/-- With enough fuel a computation comes to `outcome`. -/
def Ends (c : Nat → Descent α) (p : Cursor) (outcome : Option α × Cursor) : Prop :=
  ∃ enough, ∀ fuel, enough ≤ fuel → runOn (c fuel) p = some outcome

theorem Ends.of_runOn {c : Nat → Descent α} {p : Cursor} {outcome : Option α × Cursor}
    (h : ∀ fuel, runOn (c fuel) p = some outcome) : Ends c p outcome :=
  ⟨0, fun fuel _ => h fuel⟩

theorem Ends.congr {c c' : Nat → Descent α} {p : Cursor} {outcome : Option α × Cursor}
    (h : Ends c p outcome) (hsame : ∀ fuel, runOn (c' fuel) p = runOn (c fuel) p) :
    Ends c' p outcome := by
  obtain ⟨n, hn⟩ := h
  exact ⟨n, fun fuel hfuel => (hsame fuel).trans (hn fuel hfuel)⟩

/-- Two ends of one computation are the same. -/
theorem Ends.unique {c : Nat → Descent α} {p : Cursor} {outcome outcome' : Option α × Cursor}
    (h : Ends c p outcome) (h' : Ends c p outcome') : outcome = outcome' := by
  obtain ⟨n, hn⟩ := h
  obtain ⟨n', hn'⟩ := h'
  have hsame := (hn _ (Nat.le_max_left n n')).symm.trans (hn' _ (Nat.le_max_right n n'))
  exact Option.some.inj hsame

/-- What comes to an end with less fuel does so with more. -/
theorem Ends.call {c : Nat → Descent α} {p : Cursor} {outcome : Option α × Cursor}
    (h : Ends (fun fuel => c (fuel + 1)) p outcome) : Ends c p outcome := by
  obtain ⟨n, hn⟩ := h
  refine ⟨n + 1, fun fuel hfuel => ?_⟩
  cases fuel with
  | zero => exact absurd hfuel (Nat.not_succ_le_zero n)
  | succ fuel => exact hn fuel (Nat.le_of_succ_le_succ hfuel)

theorem Ends.bind {c : Nat → Descent α} {f : Nat → α → Descent β} {p q : Cursor} {a : α}
    {outcome : Option β × Cursor} (h : Ends c p (some a, q))
    (hnext : Ends (fun fuel => f fuel a) q outcome) :
    Ends (fun fuel => c fuel >>= f fuel) p outcome := by
  obtain ⟨n, hn⟩ := h
  obtain ⟨n', hn'⟩ := hnext
  refine ⟨max n n', fun fuel hfuel => ?_⟩
  rw [runOn_bind, hn fuel (Nat.le_trans (Nat.le_max_left n n') hfuel)]
  exact hn' fuel (Nat.le_trans (Nat.le_max_right n n') hfuel)

theorem Ends.bind_none {c : Nat → Descent α} {f : Nat → α → Descent β} {p q : Cursor}
    (h : Ends c p (none, q)) : Ends (fun fuel => c fuel >>= f fuel) p (none, q) := by
  obtain ⟨n, hn⟩ := h
  refine ⟨n, fun fuel hfuel => ?_⟩
  rw [runOn_bind, hn fuel hfuel]

/-! ## Reports -/

/-- What a computation gives back, by the faults that were reported before it
and are after it: a result and no fault more, or no result and one more. -/
inductive Explained (before : List Fault) : Option α → List Fault → Prop
  | result (a : α) : Explained before (some a) before
  | fault (fault : Fault) : Explained before none (before ++ [fault])

/-- A computation has a result, or it reports the one fault for which it has
none. -/
def Explains (c : Descent α) : Prop :=
  ∀ p a? q, runOn c p = some (a?, q) → Explained p.faults a? q.faults

theorem explains_exhausted : Explains (exhausted : Descent α) := by
  rintro p a? q ⟨⟩

theorem explains_pure (a : α) : Explains (pure a : Descent α) := by
  rintro p a? q ⟨⟩
  exact .result a

theorem explains_reject (cause : Cause) (span : Span) :
    Explains (reject cause span : Descent α) := by
  rintro p a? q ⟨⟩
  exact .fault _

theorem Explains.get {f : Cursor → Descent α} (h : ∀ p, Explains (f p)) :
    Explains (get >>= f) :=
  fun p a? q hrun => h p p a? q hrun

theorem explains_advance : Explains advance := by
  rintro p a? q ⟨⟩
  have hfaults : p.advanced.faults = p.faults := by
    unfold Cursor.advanced
    split <;> rfl
  exact hfaults ▸ .result _

/-- A computation that has a result has reported nothing, so what comes after
it starts from the same faults. -/
theorem Explains.bind {c : Descent α} {f : α → Descent β} (h : Explains c)
    (hnext : ∀ a, Explains (f a)) : Explains (c >>= f) := by
  intro p b? r hrun
  rw [runOn_bind] at hrun
  rcases hc : runOn c p with _ | ⟨a?, q⟩
  · rw [hc] at hrun
    cases hrun
  have hexplained := h p a? q hc
  rw [hc] at hrun
  generalize hfaults : q.faults = faults at hexplained
  cases hexplained with
  | result a => exact hfaults ▸ hnext a q b? r hrun
  | fault fault =>
    cases hrun
    exact hfaults ▸ .fault fault

theorem Explains.ite {b : Prop} [Decidable b] {c c' : Descent α} (h : Explains c)
    (h' : Explains c') : Explains (if b then c else c') := by
  split
  · exact h
  · exact h'

theorem explains_signs (fuel count minuses : Nat) : Explains (signs fuel count minuses) := by
  induction fuel generalizing count minuses with
  | zero => exact explains_exhausted
  | succ fuel ih =>
    rw [signs]
    exact .get fun p => .ite (explains_advance.bind fun _ => ih _ _) (explains_pure _)

/-- The functions that read an expression, with some fuel. -/
structure ExpressionsExplain (maxDepth fuel : Nat) : Prop where
  expression : ∀ depth, Explains (expression maxDepth fuel depth)
  sums : ∀ depth left, Explains (sums maxDepth fuel depth left)
  term : ∀ depth, Explains (term maxDepth fuel depth)
  products : ∀ depth left, Explains (products maxDepth fuel depth left)
  factor : ∀ depth, Explains (factor maxDepth fuel depth)
  primary : ∀ depth, Explains (primary maxDepth fuel depth)
  group : ∀ depth, Explains (group maxDepth fuel depth)

theorem explains_expression (maxDepth fuel : Nat) : ExpressionsExplain maxDepth fuel := by
  induction fuel with
  | zero =>
    constructor <;> intros <;>
      simp only [Descent.expression, sums, Descent.term, products, factor, primary, group] <;>
      exact explains_exhausted
  | succ fuel ih =>
    constructor
    case expression =>
      intro depth
      rw [Descent.expression]
      exact (ih.term depth).bind fun left => ih.sums depth left
    case sums =>
      intro depth left
      rw [Descent.sums]
      refine .get fun p => ?_
      cases p.kind.sumOp? with
      | none => exact explains_pure left
      | some op =>
        exact explains_advance.bind fun _ => (ih.term depth).bind fun right => ih.sums depth _
    case term =>
      intro depth
      rw [Descent.term]
      exact (ih.factor depth).bind fun left => ih.products depth left
    case products =>
      intro depth left
      rw [Descent.products]
      refine .get fun p => ?_
      cases p.kind.productOp? with
      | none => exact explains_pure left
      | some op =>
        exact explains_advance.bind fun _ => (ih.factor depth).bind fun right => ih.products depth _
    case factor =>
      intro depth
      rw [Descent.factor]
      refine .get fun p => (explains_signs fuel 0 0).bind fun counts => ?_
      exact (ih.primary depth).bind fun operand => .ite (explains_pure _) (explains_pure _)
    case primary =>
      intro depth
      rw [Descent.primary]
      refine .get fun p => ?_
      cases p.kind with
      | number value => exact explains_advance.bind fun span => explains_pure _
      | leftParen => exact ih.group depth
      | _ => exact explains_reject _ _
    case group =>
      intro depth
      rw [Descent.group]
      refine explains_advance.bind fun paren => .get fun p => .ite (explains_reject _ _) ?_
      refine .ite (explains_reject _ _) ((ih.expression (depth + 1)).bind fun inner => ?_)
      exact .get fun q => .ite (explains_advance.bind fun _ => explains_pure _)
        (explains_reject _ _)

/-- **Reading has a tree, or it reports the one fault for which it has
none**, whatever the list of tokens and however much fuel there is. -/
theorem explains_parse (limits : Limits) (tokens : List Token) (fuel : Nat) :
    Explains (parse limits tokens fuel) := by
  unfold parse
  cases Expr.tooLong? limits.clamped.maxTokens tokens with
  | some fault => exact explains_reject _ _
  | none =>
    cases Expr.unbalanced? [] tokens with
    | some fault => exact explains_reject _ _
    | none =>
      refine .get fun p => .ite (explains_reject _ _) ?_
      refine ((explains_expression limits.clamped.maxDepth fuel).expression 0).bind fun e => ?_
      exact .get fun q => .ite (explains_pure e) (explains_reject _ _)

/-- **A sign that is the last token is taken for ever**: no fuel is enough. -/
theorem signs_of_end {p : Cursor} {last : Token} {before : List Token} (hrest : p.rest = [])
    (htaken : p.taken = last :: before) (hsign : last.kind.isSign = true)
    (fuel count minuses : Nat) : runOn (signs fuel count minuses) p = none := by
  induction fuel generalizing p before count minuses with
  | zero => rfl
  | succ fuel ih =>
    rw [signs, runOn_get, if_pos ((Cursor.kind_of_end hrest htaken).symm ▸ hsign), runOn_advance]
    have hpeek := Cursor.peek?_of_end hrest htaken
    have hadvanced : p.advanced = { p with taken := last :: p.taken } := by
      simp [Cursor.advanced, hpeek, hrest]
    rw [hadvanced]
    apply ih
    · exact hrest
    · rfl

end Descent

end Abacus
