import Abacus.Proofs.Evaluation
import Abacus.Proofs.Stages

/-!
# Places

What is left of a calculation when places are forgotten. A place is carried
along and shown in the end, but nothing is ever decided by it: reading and
evaluating without places gives the result without places. So the number of
a text, and what is said to be wrong with it, depend only on the kinds of
its tokens and on what its bad lexemes are.
-/

namespace Abacus

/-! ## Forgetting places -/

/-- Where everything stands whose place is forgotten. -/
def Span.nowhere : Span := .point .origin

/-- A token without its place. -/
def Token.unplaced (t : Token) : Token := ⟨t.kind, .nowhere⟩

/-- A fault without its place. -/
def Fault.unplaced (f : Fault) : Fault := ⟨f.cause, .nowhere⟩

@[simp] theorem Token.kind_unplaced (t : Token) : t.unplaced.kind = t.kind := rfl

@[simp] theorem Token.span_unplaced (t : Token) : t.unplaced.span = .nowhere := rfl

@[simp] theorem Fault.unplaced_mk (cause : Cause) (span : Span) :
    (⟨cause, span⟩ : Fault).unplaced = ⟨cause, .nowhere⟩ := rfl

/-- A result without places, `f` being how what is found loses them. -/
def unplacedBy {α β : Type} (f : α → β) : Except Fault α → Except Fault β
  | .ok a => .ok (f a)
  | .error fault => .error fault.unplaced

@[simp] theorem unplacedBy_ok {α β : Type} (f : α → β) (a : α) :
    unplacedBy f (.ok a) = .ok (f a) := rfl

@[simp] theorem unplacedBy_error {α β : Type} (f : α → β) (fault : Fault) :
    unplacedBy f (.error fault) = .error fault.unplaced := rfl

/-- Results that are the same without places are both found, or both faults
with one cause. -/
theorem cases_of_unplacedBy_eq {α β : Type} {f : α → β} {r r' : Except Fault α}
    (h : unplacedBy f r = unplacedBy f r') :
    (∃ a a', r = .ok a ∧ r' = .ok a' ∧ f a = f a') ∨
      ∃ fault fault', r = .error fault ∧ r' = .error fault' ∧ fault.cause = fault'.cause := by
  cases r with
  | ok a => cases r' with
    | ok a' => exact .inl ⟨a, a', rfl, rfl, Except.ok.inj h⟩
    | error fault' => cases h
  | error fault => cases r' with
    | ok a' => cases h
    | error fault' =>
      have hfault : fault.unplaced = fault'.unplaced := Except.error.inj h
      have hcause := congrArg Fault.cause hfault
      exact .inr ⟨fault, fault', rfl, rfl, hcause⟩

/-- Without places two lists of tokens are the same when their kinds are. -/
theorem map_unplaced_eq_iff {w w' : List Token} :
    w.map Token.unplaced = w'.map Token.unplaced ↔ w.map Token.kind = w'.map Token.kind := by
  constructor
  · intro h
    have hkinds := congrArg (List.map Token.kind) h
    rwa [List.map_map, List.map_map] at hkinds
  · intro h
    have hplace := congrArg (List.map fun kind => (⟨kind, .nowhere⟩ : Token)) h
    rwa [List.map_map, List.map_map] at hplace

namespace Expr

/-- A tree without its places. -/
def unplaced : Expr → Expr
  | literal _ value => literal .nowhere value
  | negate _ operand => negate .nowhere operand.unplaced
  | group _ inner => group .nowhere inner.unplaced
  | binary _ op left right => binary .nowhere op left.unplaced right.unplaced

/-- An operand without its places, and the operator it waits at. -/
def Waiting.unplaced (w : Waiting) : Waiting := ⟨w.left.unplaced, w.op⟩

/-- A run of signs without its place. -/
def Signs.unplaced (signs : Signs) : Signs := ⟨.nowhere, signs.odd⟩

/-- What waits in a group, without its places. -/
def Pending.unplaced (p : Pending) : Pending :=
  ⟨p.sum?.map Waiting.unplaced, p.product?.map Waiting.unplaced, p.signs?.map Signs.unplaced⟩

/-- An open group without its places. -/
def Open.unplaced (g : Open) : Open := ⟨.nowhere, g.outer.unplaced⟩

/-- What has been read, without its places. -/
def State.unplaced : State → State
  | needOperand pending groups => needOperand pending.unplaced (groups.map Open.unplaced)
  | haveTerm sum? term groups =>
    haveTerm (sum?.map Waiting.unplaced) term.unplaced (groups.map Open.unplaced)

/-! ## Trees -/

@[simp] theorem span_unplaced (e : Expr) : e.unplaced.span = .nowhere := by
  cases e <;> rfl

@[simp] theorem size_unplaced (e : Expr) : e.unplaced.size = e.size := by
  induction e with
  | literal => rfl
  | negate _ _ ih => rw [unplaced, size, size, ih]
  | group _ _ ih => rw [unplaced, size, size, ih]
  | binary _ _ _ _ ihl ihr => rw [unplaced, size, size, ihl, ihr]

@[simp] theorem unplaced_withSpan (s : Span) (e : Expr) :
    (e.withSpan s).unplaced = e.unplaced := by
  cases e <;> rfl

@[simp] theorem withSpan_unplaced (e : Expr) : e.unplaced.withSpan .nowhere = e.unplaced := by
  cases e <;> rfl

@[simp] theorem unplaced_join (l : Expr) (op : BinaryOp) (r : Expr) :
    (join l op r).unplaced = join l.unplaced op r.unplaced := by
  simp [join, unplaced]

@[simp] theorem unplaced_complete (waiting? : Option Waiting) (r : Expr) :
    (complete waiting? r).unplaced = complete (waiting?.map Waiting.unplaced) r.unplaced := by
  cases waiting? with
  | none => rfl
  | some w => exact unplaced_join w.left w.op r

@[simp] theorem unplaced_signed (signs? : Option Signs) (operand : Expr) :
    (signed signs? operand).unplaced =
      signed (signs?.map Signs.unplaced) operand.unplaced := by
  cases signs? with
  | none => rfl
  | some signs => cases hodd : signs.odd <;> simp [signed, Signs.unplaced, hodd, unplaced]

theorem unplaced_addSign (signs? : Option Signs) (s : Span) (minus : Bool) :
    (addSign signs? s minus).unplaced = addSign (signs?.map Signs.unplaced) .nowhere minus := by
  cases signs? <;> rfl

@[simp] theorem unplaced_ofOperand (p : Pending) (operand : Expr) (groups : List Open) :
    (State.ofOperand p operand groups).unplaced =
      .ofOperand p.unplaced operand.unplaced (groups.map Open.unplaced) := by
  simp [State.ofOperand, State.unplaced, Pending.unplaced]

/-! ## Reading -/

variable {maxDepth : Nat} {previous? : Option TokenKind}

theorem unplaced_eq_none_iff {p : Pending} : p.unplaced = .none ↔ p = .none := by
  obtain ⟨sum?, product?, signs?⟩ := p
  simp [Pending.unplaced, Pending.none]

theorem justOpened?_unplaced (p : Pending) (groups : List Open) :
    justOpened? p.unplaced (groups.map Open.unplaced) =
      (justOpened? p groups).map fun _ => .nowhere := by
  cases groups with
  | nil => rfl
  | cons nearest groups =>
    rw [List.map_cons, justOpened?, justOpened?]
    by_cases h : p = .none
    · rw [if_pos h, if_pos (unplaced_eq_none_iff.2 h)]
      rfl
    · rw [if_neg h, if_neg (mt unplaced_eq_none_iff.1 h)]
      rfl

theorem opening?_unplaced (p : Pending) (groups : List Open) (t : Token) :
    opening? maxDepth p.unplaced (groups.map Open.unplaced) t.unplaced =
      (opening? maxDepth p groups t).map Fault.unplaced := by
  rw [opening?, opening?, justOpened?_unplaced]
  cases justOpened? p groups with
  | none => rfl
  | some paren =>
    show (if t.kind = .rightParen then _ else if maxDepth < (groups.map Open.unplaced).length
      then _ else _) = Option.map _ (if t.kind = .rightParen then _ else _)
    rw [List.length_map]
    by_cases hclose : t.kind = .rightParen
    · rw [if_pos hclose, if_pos hclose]
      simp
    · rw [if_neg hclose, if_neg hclose]
      split <;> rfl

theorem stepOperand_unplaced (p : Pending) (groups : List Open) (t : Token) :
    stepOperand previous? p.unplaced (groups.map Open.unplaced) t.unplaced =
      unplacedBy State.unplaced (stepOperand previous? p groups t) := by
  obtain ⟨kind, s⟩ := t
  cases kind with
  | number x => exact congrArg Except.ok (unplaced_ofOperand p (.literal s x) groups).symm
  | plus => simp [stepOperand, State.unplaced, Pending.unplaced, unplaced_addSign]
  | minus => simp [stepOperand, State.unplaced, Pending.unplaced, unplaced_addSign]
  | _ => rfl

theorem stepTerm_unplaced (sum? : Option Waiting) (term : Expr) (groups : List Open) (t : Token) :
    stepTerm (sum?.map Waiting.unplaced) term.unplaced (groups.map Open.unplaced) t.unplaced =
      unplacedBy State.unplaced (stepTerm sum? term groups t) := by
  obtain ⟨kind, s⟩ := t
  cases kind with
  | plus => simp [stepTerm, State.unplaced, Pending.unplaced, Waiting.unplaced]
  | minus => simp [stepTerm, State.unplaced, Pending.unplaced, Waiting.unplaced]
  | star => simp [stepTerm, State.unplaced, Pending.unplaced, Waiting.unplaced]
  | slash => simp [stepTerm, State.unplaced, Pending.unplaced, Waiting.unplaced]
  | rightParen => cases groups <;> simp [stepTerm, Open.unplaced, unplaced]
  | _ => cases groups <;> rfl

/-- **A step does not look at places.** -/
theorem step_unplaced (state : State) (t : Token) :
    step maxDepth previous? state.unplaced t.unplaced =
      unplacedBy State.unplaced (step maxDepth previous? state t) := by
  cases state with
  | haveTerm sum? term groups => exact stepTerm_unplaced sum? term groups t
  | needOperand p groups =>
    rw [State.unplaced, step, step, opening?_unplaced]
    cases opening? maxDepth p groups t with
    | some fault => rfl
    | none => exact stepOperand_unplaced p groups t

theorem finish_unplaced (state : State) (t : Token) :
    finish maxDepth previous? state.unplaced t.unplaced =
      unplacedBy unplaced (finish maxDepth previous? state t) := by
  cases state with
  | haveTerm sum? term groups => cases groups with
    | nil => exact congrArg Except.ok (unplaced_complete sum? term).symm
    | cons => rfl
  | needOperand p groups =>
    rw [State.unplaced, finish, finish, opening?_unplaced]
    cases opening? maxDepth p groups t <;> rfl

theorem runOut_unplaced (state : State) (t : Token) :
    runOut state.unplaced t.unplaced = unplacedBy unplaced (runOut state t) := by
  cases state with
  | haveTerm sum? term groups => cases groups <;> rfl
  | needOperand => rfl

theorem readAfter_unplaced (previous : Token) (state : State) (tokens : List Token) :
    readAfter maxDepth previous.unplaced state.unplaced (tokens.map Token.unplaced) =
      unplacedBy unplaced (readAfter maxDepth previous state tokens) := by
  induction tokens generalizing previous state with
  | nil => exact runOut_unplaced state previous
  | cons t rest ih =>
    rw [List.map_cons, readAfter, readAfter, t.kind_unplaced, previous.kind_unplaced]
    by_cases hend : t.kind = .endOfInput
    · rw [if_pos hend, if_pos hend, finish_unplaced]
    · rw [if_neg hend, if_neg hend, step_unplaced]
      cases step maxDepth (some previous.kind) state t with
      | error fault => rfl
      | ok next => exact ih t next

theorem read_unplaced (tokens : List Token) :
    read maxDepth (tokens.map Token.unplaced) = unplacedBy unplaced (read maxDepth tokens) := by
  cases tokens with
  | nil => rfl
  | cons t rest =>
    have hstart : step maxDepth none .start t.unplaced =
        unplacedBy State.unplaced (step maxDepth none .start t) := step_unplaced .start t
    rw [List.map_cons, read, read, t.kind_unplaced]
    by_cases hend : t.kind = .endOfInput
    · rw [if_pos hend, if_pos hend]
      rfl
    · rw [if_neg hend, if_neg hend, hstart]
      cases step maxDepth none .start t with
      | error fault => rfl
      | ok next => exact readAfter_unplaced t next rest

/-! ## Checks on the whole list -/

theorem tooLong?_unplaced (maxTokens : Nat) (tokens : List Token) :
    tooLong? maxTokens (tokens.map Token.unplaced) =
      (tooLong? maxTokens tokens).map Fault.unplaced := by
  rw [tooLong?, tooLong?, List.length_map]
  by_cases hshort : tokens.length - 1 ≤ maxTokens
  · rw [if_pos hshort, if_pos hshort]
    rfl
  · rw [if_neg hshort, if_neg hshort, List.getElem?_map, Option.map_map, Option.map_map]
    rfl

theorem unbalanced?_unplaced (opened : List Span) (tokens : List Token) :
    unbalanced? (opened.map fun _ => .nowhere) (tokens.map Token.unplaced) =
      (unbalanced? opened tokens).map Fault.unplaced := by
  induction tokens generalizing opened with
  | nil => cases opened <;> rfl
  | cons t rest ih =>
    obtain ⟨kind, s⟩ := t
    cases kind with
    | leftParen => exact ih (s :: opened)
    | rightParen => cases opened with
      | nil => rfl
      | cons _ opened => exact ih opened
    | _ => exact ih opened

/-- **Reading does not look at places.** -/
theorem ofTokens_unplaced (limits : Limits) (tokens : List Token) :
    ofTokens limits (tokens.map Token.unplaced) = unplacedBy unplaced (ofTokens limits tokens) := by
  rw [ofTokens, ofTokens, tooLong?_unplaced]
  cases tooLong? limits.clamped.maxTokens tokens with
  | some fault => rfl
  | none =>
    have hbalance := unbalanced?_unplaced [] tokens
    rw [List.map_nil] at hbalance
    simp only [Option.map_none, hbalance]
    cases unbalanced? [] tokens with
    | some fault => rfl
    | none => exact read_unplaced tokens

/-- Tokens of the same kinds have the same tree, at other places. -/
theorem exists_ofTokens_of_kinds {limits : Limits} {tokens tokens' : List Token} {e : Expr}
    (h : ofTokens limits tokens = .ok e) (hkinds : tokens'.map Token.kind = tokens.map Token.kind) :
    ∃ e', ofTokens limits tokens' = .ok e' ∧ e'.unplaced = e.unplaced := by
  have hsame : unplacedBy unplaced (ofTokens limits tokens') =
      unplacedBy unplaced (ofTokens limits tokens) := by
    rw [← ofTokens_unplaced, ← ofTokens_unplaced, map_unplaced_eq_iff.2 hkinds]
  rcases cases_of_unplacedBy_eq hsame with ⟨e', f, he', hf, heq⟩ | ⟨_, _, -, hnone, -⟩
  · rw [h] at hf
    cases hf
    exact ⟨e', he', heq⟩
  · rw [h] at hnone
    cases hnone

/-! ## Evaluation -/

theorem value_unplaced (e : Expr) : value e.unplaced = unplacedBy id (value e) := by
  induction e with
  | literal s x =>
    rw [unplaced, value, value]
    cases literalValue x <;> rfl
  | negate s operand ih =>
    rw [unplaced, value, value, ih]
    cases value operand <;> rfl
  | group s inner ih => exact ih
  | binary s op left right ihl ihr =>
    rw [unplaced, value, value, ihl, ihr]
    cases value left with
    | error => rfl
    | ok x => cases value right with
      | error => rfl
      | ok y =>
        show (op.apply x y).mapError _ = unplacedBy id ((op.apply x y).mapError _)
        cases op.apply x y <;> rfl

theorem visits_unplaced (e : Expr) : visits e.unplaced = (visits e).map fun _ => .nowhere := by
  induction e with
  | literal => rfl
  | negate _ _ ih => rw [unplaced, visits, visits, ih, List.map_cons]
  | group _ _ ih => rw [unplaced, visits, visits, ih, List.map_cons]
  | binary s op left right ihl ihr =>
    rw [unplaced, visits, visits, value_unplaced, ihl, ihr]
    cases value left with
    | error => rfl
    | ok x => rw [List.map_append, List.map_cons]; rfl

/-- **Evaluation does not look at places.** -/
theorem eval_unplaced (limit : Nat) (s : UInt64) (e : Expr) :
    ((eval limit e.unplaced).run.run s).1 = unplacedBy id ((eval limit e).run.run s).1 := by
  have hpay := Metered.pay_map (fun _ => .nowhere) limit s (visits e)
  rw [eval_spends limit e.unplaced s, eval_spends limit e s, visits_unplaced, hpay]
  rcases Metered.pay limit s (visits e) with ⟨_ | span, s'⟩
  · exact value_unplaced e
  · rfl

end Expr

/-! ## Calculations -/

theorem valued_unplaced (limits : Limits) (budget : Nat) (tokens : List Token) :
    valued limits budget (tokens.map Token.unplaced) =
      unplacedBy id (valued limits budget tokens) := by
  rw [valued, valued, Expr.ofTokens_unplaced]
  cases Expr.ofTokens limits tokens with
  | error fault => rfl
  | ok e => exact Expr.eval_unplaced budget 0 e

/-- What the faults are, without their places. -/
def Faults.causes (faults : Faults) : List Cause :=
  faults.toList.map Fault.cause

/-- The scans of two texts find tokens of the same kinds, and the same
things wrong. -/
structure Scan.Alike (s s' : Scan) : Prop where
  kinds : s.tokens.map Token.kind = s'.tokens.map Token.kind
  causes : s.faults.map Fault.cause = s'.faults.map Fault.cause

/-- **What a calculation depends on**: the kinds of the tokens and what is
wrong with the bad lexemes. -/
theorem calculate_congr (limits : Limits) {text text' : List Char}
    (h : (Scan.ofText text).Alike (Scan.ofText text')) :
    (calculate limits text).mapError Faults.causes =
      (calculate limits text').mapError Faults.causes := by
  have hcauses := h.causes
  cases hfaults : (Scan.ofText text).faults with
  | cons first rest =>
    rw [hfaults] at hcauses
    obtain ⟨first', rest', hfaults', -, -⟩ := List.map_eq_cons_iff.1 hcauses.symm
    rw [hfaults'] at hcauses
    simpa [calculate, hfaults, hfaults', Faults.causes, Faults.toList] using hcauses
  | nil =>
    rw [hfaults, List.map_nil] at hcauses
    have hfaults' := List.map_eq_nil_iff.1 hcauses.symm
    have hlength := congrArg List.length h.kinds
    rw [List.length_map, List.length_map] at hlength
    -- without places the two stages after the scan are the same computation
    have hvalued : ∀ budget, unplacedBy id (valued limits budget (Scan.ofText text).tokens) =
        unplacedBy id (valued limits budget (Scan.ofText text').tokens) := by
      intro budget
      rw [← valued_unplaced, ← valued_unplaced, map_unplaced_eq_iff.2 h.kinds]
    rw [calculate_eq_valued hfaults, calculate_eq_valued hfaults', stepBudget, stepBudget,
      hlength]
    generalize limits.stepLimit?.getD (Scan.ofText text').tokens.length = budget
    rcases cases_of_unplacedBy_eq (hvalued budget) with
      ⟨x, y, hleft, hright, heq⟩ | ⟨fault, fault', hleft, hright, hcause⟩
    · rw [hleft, hright]
      exact congrArg (fun z => Except.ok (Number.ofDouble z)) heq
    · rw [hleft, hright]
      exact congrArg (fun cause => Except.error [cause]) hcause

end Abacus
