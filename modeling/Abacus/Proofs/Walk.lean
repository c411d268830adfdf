import Abacus.Proofs.Grammar

/-!
# Walk

The machine that reads tokens, as a relation: `Moves` says what one token
does to a state, apart from the check that is made beside it, and `Walks`
is a run of moves. Reading ends in a tree exactly when a walk leads to a
complete expression (`read_eq_ok_iff_walks`), so what reading does to a
whole list is said by what a move does to a state.
-/

namespace Abacus.Expr

variable {maxDepth : Nat} {previous? : Option TokenKind} {state state' : State}
  {token : Token} {tokens u v w : List Token} {e : Expr}

/-! ## Results that agree -/

/-- Both fail for the same kind of fault, or both succeed with results that
are related. -/
inductive Agrees {α : Type} (related : α → α → Prop) : Except Fault α → Except Fault α → Prop
  | error {f f' : Fault} (h : f.kind = f'.kind) : Agrees related (.error f) (.error f')
  | ok {a a' : α} (h : related a a') : Agrees related (.ok a) (.ok a')

theorem Agrees.refl {α : Type} {related : α → α → Prop} (h : ∀ a, related a a)
    (result : Except Fault α) : Agrees related result result := by
  cases result with
  | error => exact .error rfl
  | ok a => exact .ok (h a)

theorem Agrees.congr {α : Type} {related : α → α → Prop} {r r' q q' : Except Fault α}
    (hr : Agrees Eq r r') (hq : Agrees Eq q q') (h : Agrees related r' q') :
    Agrees related r q := by
  cases h with
  | error hkind => cases hr with
    | error hr => cases hq with
      | error hq => exact .error (hr.trans (hkind.trans hq.symm))
  | ok hrelated => cases hr with
    | ok hr => cases hq with
      | ok hq =>
        subst hr hq
        exact .ok hrelated

/-- What has been read before matters for the wording of a fault only. -/
theorem step_agrees (maxDepth : Nat) (previous? previous'? : Option TokenKind) (state : State)
    (token : Token) :
    Agrees Eq (step maxDepth previous? state token) (step maxDepth previous'? state token) := by
  obtain ⟨kind, s⟩ := token
  cases state with
  | haveTerm => exact .refl (fun _ => rfl) _
  | needOperand pending groups =>
    simp only [step]
    cases opening? maxDepth pending groups ⟨kind, s⟩ with
    | some fault => exact .error rfl
    | none => cases kind <;> first | exact .ok rfl | exact .error rfl

/-- Reading begins as it goes on from the start. -/
theorem read_agrees (maxDepth : Nat) (previous : Token) (tokens : List Token) :
    Agrees Eq (read maxDepth tokens) (readAfter maxDepth previous .start tokens) := by
  cases tokens with
  | nil => exact .error rfl
  | cons token rest =>
    rw [read, readAfter]
    by_cases hend : token.kind = .endOfInput
    · rw [if_pos hend, if_pos hend]
      exact .error rfl
    · rw [if_neg hend, if_neg hend]
      have hstep := step_agrees maxDepth none (some previous.kind) .start token
      generalize step maxDepth none .start token = next at hstep
      generalize step maxDepth (some previous.kind) .start token = next' at hstep
      cases hstep with
      | error hkind => exact .error hkind
      | ok heq =>
        subst heq
        exact .refl (fun _ => rfl) _

theorem read_eq_ok_iff_readAfter (previous : Token) :
    read maxDepth tokens = .ok e ↔ readAfter maxDepth previous .start tokens = .ok e := by
  have h := read_agrees maxDepth previous tokens
  generalize read maxDepth tokens = result at h ⊢
  generalize readAfter maxDepth previous .start tokens = result' at h ⊢
  cases h with
  | error => simp
  | ok heq => rw [heq]

/-! ## Moves -/

/-- The groups that are open, innermost first. -/
def State.groups : State → List Open
  | .needOperand _ groups => groups
  | .haveTerm _ _ groups => groups

/-- What is wrong just after a `(`, in any state. -/
def State.opening? (maxDepth : Nat) (token : Token) : State → Option Fault
  | .needOperand pending groups => Expr.opening? maxDepth pending groups token
  | .haveTerm .. => none

/-- What a token does to a state. -/
inductive Moves : State → Token → State → Prop
  | number {pending : Pending} {groups : List Open} (s : Span) (x : Double) :
      Moves (.needOperand pending groups) ⟨.number x, s⟩
        (.ofOperand pending (.literal s x) groups)
  | opens {pending : Pending} {groups : List Open} (s : Span) :
      Moves (.needOperand pending groups) ⟨.leftParen, s⟩
        (.needOperand .none (⟨s, pending⟩ :: groups))
  | sign {pending : Pending} {groups : List Open} {t : Token}
      (h : t.kind.isSign = true) :
      Moves (.needOperand pending groups) t
        (.needOperand
          { pending with signs? := addSign pending.signs? t.span (t.kind == .minus) } groups)
  | sum {sum? : Option Waiting} {e : Expr} {groups : List Open} {t : Token} {op : BinaryOp}
      (h : t.kind.sumOp? = some op) :
      Moves (.haveTerm sum? e groups) t
        (.needOperand ⟨some ⟨complete sum? e, op⟩, none, none⟩ groups)
  | product {sum? : Option Waiting} {e : Expr} {groups : List Open} {t : Token}
      {op : BinaryOp} (h : t.kind.productOp? = some op) :
      Moves (.haveTerm sum? e groups) t (.needOperand ⟨sum?, some ⟨e, op⟩, none⟩ groups)
  | closes {sum? : Option Waiting} {e : Expr} {paren : Span} {outer : Pending}
      {groups : List Open} (s : Span) :
      Moves (.haveTerm sum? e (⟨paren, outer⟩ :: groups)) ⟨.rightParen, s⟩
        (.ofOperand outer (.group (paren.merge s) (complete sum? e)) groups)

/-- A step succeeds exactly when the check just after a `(` finds nothing
and the token moves the state. -/
theorem step_eq_ok :
    step maxDepth previous? state token = .ok state' ↔
      state.opening? maxDepth token = none ∧ Moves state token state' := by
  obtain ⟨kind, s⟩ := token
  constructor
  · intro h
    cases state with
    | needOperand pending groups =>
      simp only [step, State.opening?] at h ⊢
      cases hopening : opening? maxDepth pending groups ⟨kind, s⟩ with
      | some fault => simp [hopening] at h
      | none =>
        rw [hopening] at h
        refine ⟨rfl, ?_⟩
        cases kind <;> simp only [stepOperand, Except.ok.injEq, reduceCtorEq] at h <;> subst h
        case number x => exact .number s x
        case plus => exact .sign rfl
        case minus => exact .sign rfl
        case leftParen => exact .opens s
    | haveTerm sum? e groups =>
      refine ⟨rfl, ?_⟩
      simp only [step] at h
      cases kind with
      | plus => cases h; exact .sum rfl
      | minus => cases h; exact .sum rfl
      | star => cases h; exact .product rfl
      | slash => cases h; exact .product rfl
      | rightParen =>
        cases groups with
        | nil => simp [stepTerm] at h
        | cons nearest groups => cases h; exact .closes s
      | _ => cases groups <;> simp [stepTerm] at h
  · rintro ⟨hopening, hmove⟩
    cases hmove with
    | sum h => cases kind <;> cases h <;> rfl
    | product h => cases kind <;> cases h <;> rfl
    | closes => rfl
    | number | opens =>
      simp only [State.opening?] at hopening
      simp [step, hopening, stepOperand]
    | sign h =>
      simp only [State.opening?] at hopening
      cases kind with
      | plus => simp only [step, hopening, stepOperand]; rfl
      | minus => simp only [step, hopening, stepOperand]; rfl
      | _ => cases h

theorem Moves.groups_length (h : Moves state token state') :
    (state'.groups.length : Int) = state.groups.length + token.kind.turn := by
  cases h with
  | number => simp [State.groups, State.ofOperand, TokenKind.turn]
  | opens => simp [State.groups]
  | sign h => simp [State.groups, TokenKind.turn_of_isSign h]
  | sum h => simp [State.groups, TokenKind.turn_of_sumOp? h]
  | product h => simp [State.groups, TokenKind.turn_of_productOp? h]
  | closes =>
    simp only [State.groups, State.ofOperand, List.length_cons, TokenKind.turn_rightParen]
    omega

theorem Moves.ne_end (h : Moves state token state') : token.kind ≠ .endOfInput := by
  cases h with
  | sign h => exact TokenKind.ne_of_isSign h rfl
  | sum h =>
    intro hend
    rw [hend] at h
    cases h
  | product h =>
    intro hend
    rw [hend] at h
    cases h
  | _ => simp

/-! ## Walks -/

/-- A run of moves through a list of tokens, each of which passes the check
just after a `(`. -/
inductive Walks (maxDepth : Nat) : State → List Token → State → Prop
  | nil (state : State) : Walks maxDepth state [] state
  | cons {state next last : State} {t : Token} {ts : List Token}
      (passes : state.opening? maxDepth t = none) (move : Moves state t next)
      (walk : Walks maxDepth next ts last) : Walks maxDepth state (t :: ts) last

theorem Walks.single (passes : state.opening? maxDepth token = none)
    (move : Moves state token state') : Walks maxDepth state [token] state' :=
  .cons passes move (.nil _)

theorem Walks.append {state'' : State} (h : Walks maxDepth state u state')
    (h' : Walks maxDepth state' v state'') : Walks maxDepth state (u ++ v) state'' := by
  induction h with
  | nil => exact h'
  | cons passes move _ ih => exact .cons passes move (ih h')

/-- A walk through two lists is a walk through each. -/
theorem Walks.split (walk : Walks maxDepth state (u ++ w) state') :
    ∃ mid, Walks maxDepth state u mid ∧ Walks maxDepth mid w state' := by
  induction u generalizing state with
  | nil => exact ⟨state, .nil _, walk⟩
  | cons t u ih => cases walk with
    | cons passes move walk =>
      obtain ⟨mid, hu, hw⟩ := ih walk
      exact ⟨mid, .cons passes move hu, hw⟩

theorem Walks.ne_end (h : Walks maxDepth state w state') :
    ∀ t ∈ w, t.kind ≠ .endOfInput := by
  induction h with
  | nil => simp
  | cons _ move _ ih =>
    intro t ht
    rcases List.mem_cons.1 ht with rfl | ht
    · exact move.ne_end
    · exact ih t ht

theorem Walks.beforeEnd_eq (h : Walks maxDepth state w state')
    (hend : token.kind = .endOfInput) : beforeEnd (w ++ token :: tokens) = w := by
  rw [beforeEnd, List.takeWhile_append_of_pos (by simpa using h.ne_end)]
  simp [hend]

theorem Walks.groups_length (h : Walks maxDepth state w state') :
    (state'.groups.length : Int) = state.groups.length + nesting w := by
  induction h with
  | nil => simp
  | cons _ move _ ih =>
    rw [ih, move.groups_length, nesting_cons]
    omega

/-- A text may end exactly where an expression is complete and no group is
open. -/
theorem finish_eq_ok :
    finish maxDepth previous? state token = .ok e ↔
      ∃ sum? term, state = .haveTerm sum? term [] ∧ e = complete sum? term := by
  cases state with
  | needOperand pending groups =>
    simp only [finish]
    cases opening? maxDepth pending groups token <;> simp
  | haveTerm sum? term groups =>
    cases groups with
    | cons => simp [finish]
    | nil =>
      constructor
      · intro h
        cases h
        exact ⟨sum?, term, rfl, rfl⟩
      · rintro ⟨_, _, h, rfl⟩
        cases h
        rfl

theorem Walks.readAfter_eq {sum? : Option Waiting} {term : Expr} (previous : Token)
    (h : Walks maxDepth state w (.haveTerm sum? term [])) (hend : token.kind = .endOfInput) :
    readAfter maxDepth previous state (w ++ token :: tokens) = .ok (complete sum? term) := by
  generalize hlast : State.haveTerm sum? term [] = last at h
  -- the last state is fixed by `hlast`, so that the induction is on the walk
  induction h generalizing previous with
  | nil =>
    subst hlast
    simp [readAfter, hend, finish]
  | @cons _ next _ t ts passes move _ ih =>
    rw [List.cons_append, readAfter, if_neg move.ne_end, step_eq_ok.2 ⟨passes, move⟩]
    exact ih t hlast

theorem exists_walks_of_readAfter (previous : Token)
    (h : readAfter maxDepth previous state tokens = .ok e) :
    ∃ w t rest sum? term, tokens = w ++ t :: rest ∧ t.kind = .endOfInput ∧
      Walks maxDepth state w (.haveTerm sum? term []) ∧ e = complete sum? term := by
  induction tokens generalizing previous state with
  | nil => cases state with
    | needOperand => simp [readAfter, runOut] at h
    | haveTerm _ _ groups => cases groups <;> simp [readAfter, runOut] at h
  | cons token rest ih =>
    rw [readAfter] at h
    by_cases hend : token.kind = .endOfInput
    · rw [if_pos hend] at h
      obtain ⟨sum?, term, rfl, he⟩ := finish_eq_ok.1 h
      exact ⟨[], token, rest, sum?, term, rfl, hend, .nil _, he⟩
    · rw [if_neg hend] at h
      cases hstep : step maxDepth (some previous.kind) state token with
      | error fault => simp [hstep] at h
      | ok next =>
        rw [hstep] at h
        obtain ⟨passes, move⟩ := step_eq_ok.1 hstep
        obtain ⟨w, t, rest', sum?, term, rfl, ht, walk, he⟩ := ih token h
        exact ⟨token :: w, t, rest', sum?, term, rfl, ht, .cons passes move walk, he⟩

/-- Reading gives a tree exactly when a walk from the start leads to a
complete expression with no group open, and the text ends there. -/
theorem read_eq_ok_iff_walks :
    read maxDepth tokens = .ok e ↔
      ∃ w t rest sum? term, tokens = w ++ t :: rest ∧ t.kind = .endOfInput ∧
        Walks maxDepth .start w (.haveTerm sum? term []) ∧ e = complete sum? term := by
  rw [read_eq_ok_iff_readAfter ⟨.endOfInput, .point .origin⟩]
  constructor
  · exact exists_walks_of_readAfter _
  · rintro ⟨w, t, rest, sum?, term, rfl, hend, walk, rfl⟩
    exact walk.readAfter_eq _ hend

/-! ## How deep a walk goes -/

/-- Unless a `(` has just been read, no more groups are open than allowed. -/
def Settled (maxDepth : Nat) : State → Prop
  | .needOperand pending groups =>
    justOpened? pending groups = none → groups.length ≤ maxDepth
  | .haveTerm _ _ groups => groups.length ≤ maxDepth

/-- The check just after a `(` finds nothing in any state that has no more
groups open than allowed, unless the group would be empty. -/
theorem State.opening?_eq_none (hdepth : state.groups.length ≤ maxDepth)
    (hkind : token.kind ≠ .rightParen) : state.opening? maxDepth token = none := by
  cases state with
  | haveTerm => rfl
  | needOperand pending groups =>
    simp only [State.groups] at hdepth
    simp only [State.opening?, Expr.opening?]
    cases justOpened? pending groups with
    | none => rfl
    | some paren => simp [hkind, Nat.not_lt.2 hdepth]

theorem Settled.groups_length_le (h : Settled maxDepth state)
    (passes : state.opening? maxDepth token = none) : state.groups.length ≤ maxDepth := by
  cases state with
  | haveTerm => exact h
  | needOperand pending groups =>
    simp only [State.opening?, Expr.opening?] at passes
    cases hopened : justOpened? pending groups with
    | none => exact h hopened
    | some paren =>
      rw [hopened] at passes
      by_cases hdepth : maxDepth < groups.length
      · by_cases hkind : token.kind = .rightParen <;> simp [hkind, hdepth] at passes
      · exact Nat.not_lt.1 hdepth

theorem Moves.settled (move : Moves state token state') (h : Settled maxDepth state)
    (passes : state.opening? maxDepth token = none) : Settled maxDepth state' := by
  have hdepth := h.groups_length_le passes
  cases move with
  | number => exact hdepth
  | opens => intro hopened; simp [justOpened?] at hopened
  | closes =>
    simp only [State.groups, List.length_cons] at hdepth
    simp only [Settled, State.ofOperand]
    omega
  | _ => exact fun _ => hdepth

/-- Before each of its tokens a walk has no more groups open than allowed,
and it ends settled. -/
theorem Walks.nesting_le (walk : Walks maxDepth state w state') (h : Settled maxDepth state) :
    Settled maxDepth state' ∧
      ∀ q, q <+: w → q ≠ w → state.groups.length + nesting q ≤ maxDepth := by
  induction walk with
  | nil => exact ⟨h, fun q hq hne => absurd (List.prefix_nil.1 hq) hne⟩
  | @cons state next last t ts passes move _ ih =>
    obtain ⟨hlast, hwithin⟩ := ih (move.settled h passes)
    -- the empty prefix is the state before the move, the others begin after it
    refine ⟨hlast, forall_prefix_cons.2 ⟨fun _ => ?_, fun q hq hne => ?_⟩⟩
    · simpa using h.groups_length_le passes
    · have := hwithin q hq fun heq => hne (by rw [heq])
      rw [move.groups_length] at this
      rw [nesting_cons]
      omega

/-- A walk from the start to a complete expression nests no deeper than
allowed. -/
theorem Walks.nestedWithin {sum? : Option Waiting} {term : Expr}
    (walk : Walks maxDepth .start w (.haveTerm sum? term [])) : NestedWithin maxDepth w := by
  intro q hq
  by_cases hne : q = w
  · -- at the end no group is open, so the whole list is balanced
    have hlength := walk.groups_length
    simp only [State.start, State.groups, List.length_nil] at hlength
    rw [hne]
    omega
  · have hsettled : Settled maxDepth .start := fun _ => Nat.zero_le _
    simpa [State.start, State.groups] using (walk.nesting_le hsettled).2 q hq hne

end Abacus.Expr
