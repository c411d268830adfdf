import Abacus.Proofs.Acceptance
import Abacus.Proofs.Cursor

/-!
# Descent

Recursive descent ends, on every list of tokens that is balanced and does
not end in a sign, and it comes to what the machine that reads tokens comes
to. Both are run side by side: where the cursor stands the machine is in
some state, and a function of the descent does to the cursor what the tokens
it takes do to the state. The length of the rest bounds the descent. Past
the end, where the rest does not shrink, no function takes a token: what
stands last is a `*` or a `/` where an operand is needed, and a number or a
`)` after a term, where by balance no group is open any more.
-/

namespace Abacus

open Abacus.Expr

/-- Whether a token can be the last one of a term. -/
def TokenKind.endsTerm : TokenKind → Bool
  | number _ | rightParen => true
  | _ => false

namespace Descent

variable {maxDepth n : Nat} {tokens rest : List Token} {token t : Token} {p q : Cursor}
  {state state' : State} {pending : Pending} {groups : List Open} {fault : Fault}
  {sum? product? : Option Waiting} {e left operand : Expr}

/-- Lists that a descent can be trusted with: the parentheses are balanced,
and the last token is no sign, which would be taken for ever. -/
structure Stoppable (tokens : List Token) : Prop where
  balanced : Balanced tokens
  unsigned : ∀ t ∈ tokens.getLast?, t.kind.isSign = false

/-! ## Cursors and states -/

/-- The token before the cursor, by what the machine needs. -/
def Place : State → Option TokenKind → Prop
  | .needOperand .., previous? => ∀ k ∈ previous?, k.endsTerm = false
  | .haveTerm .., previous? => ∃ k ∈ previous?, k.endsTerm = true

/-- The tokens up to the cursor were taken, each of them once, and none of
them is an end of the text. -/
structure Within (tokens : List Token) (p : Cursor) : Prop where
  once : p.taken.reverse ++ p.rest = tokens
  before : ∀ t ∈ p.taken, t.kind ≠ .endOfInput

/-- The machine has read the tokens up to the cursor and is in `state`. -/
structure At (tokens : List Token) (p : Cursor) (state : State) : Prop extends
    Within tokens p where
  groups : (state.groups.length : Int) = nesting p.taken.reverse
  place : Place state p.previous?
  start : p.taken = [] → state = .start
  clean : p.faults = []

/-- What the machine comes to from `state`, with the tokens from the cursor
on. -/
def resume (maxDepth : Nat) (state : State) (p : Cursor) : Except Fault Expr :=
  match p.taken with
  | [] => Expr.read maxDepth p.rest
  | previous :: _ => readAfter maxDepth previous state p.rest

theorem Within.taken_prefix (h : Within tokens p) : p.taken.reverse <+: beforeEnd tokens := by
  rw [← h.once, beforeEnd, List.takeWhile_append_of_pos fun t ht => by
    simpa using h.before t (List.mem_reverse.1 ht)]
  exact List.prefix_append _ _

theorem place_of_moves (move : Moves state token state') : Place state' (some token.kind) := by
  cases move with
  | number => exact ⟨_, rfl, rfl⟩
  | closes => exact ⟨_, rfl, rfl⟩
  | opens =>
    rintro _ ⟨⟩
    rfl
  | sign h =>
    rintro _ ⟨⟩
    cases hkind : token.kind <;> simp [hkind, TokenKind.isSign] at h <;> rfl
  | sum h =>
    rintro _ ⟨⟩
    cases hkind : token.kind <;> simp [hkind, TokenKind.sumOp?] at h <;> rfl
  | product h =>
    rintro _ ⟨⟩
    cases hkind : token.kind <;> simp [hkind, TokenKind.productOp?] at h <;> rfl

/-- **A step of the machine takes one token.** -/
theorem At.advanced (h : At tokens p state) (hrest : p.rest = token :: rest)
    (hstep : step maxDepth p.previous? state token = .ok state') :
    At tokens p.advanced state' ∧ resume maxDepth state p = resume maxDepth state' p.advanced := by
  obtain ⟨-, move⟩ := step_eq_ok.1 hstep
  rw [Cursor.advanced_eq hrest]
  refine ⟨⟨⟨?_, ?_⟩, ?_, place_of_moves move, by simp, h.clean⟩, ?_⟩
  · rw [← h.once, hrest]
    simp
  · intro t ht
    rcases List.mem_cons.1 ht with rfl | ht
    · exact move.ne_end
    · exact h.before t ht
  · rw [move.groups_length, h.groups]
    simp
  · cases htaken : p.taken with
    | nil =>
      obtain rfl := h.start htaken
      rw [Cursor.previous?_of_start htaken] at hstep
      simp only [resume, htaken, hrest, Expr.read, if_neg move.ne_end, hstep]
    | cons previous before =>
      rw [Cursor.previous?_eq htaken] at hstep
      simp only [resume, htaken, hrest, readAfter, if_neg move.ne_end, hstep]

theorem At.resume_of_step (h : At tokens p state) (hrest : p.rest = token :: rest)
    (hne : token.kind ≠ .endOfInput)
    (hstep : step maxDepth p.previous? state token = .error fault) :
    resume maxDepth state p = .error fault := by
  cases htaken : p.taken with
  | nil =>
    obtain rfl := h.start htaken
    rw [Cursor.previous?_of_start htaken] at hstep
    simp only [resume, htaken, hrest, Expr.read, if_neg hne, hstep]
  | cons previous before =>
    rw [Cursor.previous?_eq htaken] at hstep
    simp only [resume, htaken, hrest, readAfter, if_neg hne, hstep]

theorem resume_of_endOfInput (htaken : p.taken ≠ []) (hrest : p.rest = token :: rest)
    (hend : token.kind = .endOfInput) :
    resume maxDepth state p = finish maxDepth p.previous? state token := by
  obtain ⟨previous, before, htaken⟩ := List.exists_cons_of_ne_nil htaken
  simp only [resume, htaken, hrest, readAfter, if_pos hend, Cursor.previous?_eq htaken]

theorem resume_of_end (htaken : p.taken = token :: rest) (hrest : p.rest = []) :
    resume maxDepth state p = runOut state token := by
  simp only [resume, htaken, hrest, readAfter]

/-! ## Past the end -/

/-- The cursor may stand where an operand is needed: no more groups are open
than allowed, and neither the list nor a group is empty. -/
structure Ready (maxDepth : Nat) (p : Cursor) (pending : Pending) (groups : List Open) : Prop where
  depth : groups.length ≤ maxDepth
  opening : p.kind = .rightParen → justOpened? pending groups = none
  nonempty : p.taken = [] → p.kind ≠ .endOfInput

theorem Ready.opening?_eq_none (h : Ready maxDepth p pending groups)
    (hrest : p.rest = token :: rest) : opening? maxDepth pending groups token = none := by
  by_cases hkind : token.kind = .rightParen
  · rw [opening?, h.opening ((Cursor.kind_eq hrest).trans hkind)]
  · have hnone : (State.needOperand pending groups).opening? maxDepth token = none :=
      State.opening?_eq_none h.depth hkind
    exact hnone

theorem Ready.step_of_moves (h : Ready maxDepth p pending groups) (hrest : p.rest = token :: rest)
    (move : Moves (.needOperand pending groups) token state') :
    step maxDepth p.previous? (.needOperand pending groups) token = .ok state' :=
  step_eq_ok.2 ⟨h.opening?_eq_none hrest, move⟩

/-- Once something waits, the next token may be any. -/
theorem Ready.advanced (hdepth : groups.length ≤ maxDepth) (hwaits : pending ≠ .none)
    (hrest : p.rest = token :: rest) : Ready maxDepth p.advanced pending groups := by
  refine ⟨hdepth, fun _ => ?_, ?_⟩
  · cases groups with
    | nil => rfl
    | cons => exact if_neg hwaits
  · rw [Cursor.advanced_eq hrest]
    exact fun h => by cases h

theorem At.groups_of_end (hs : Stoppable tokens) (h : At tokens p state) (hrest : p.rest = []) :
    state.groups = [] := by
  have hcut := h.once
  rw [hrest, List.append_nil] at hcut
  have hgroups := h.groups
  rw [hcut, hs.balanced.2] at hgroups
  exact List.eq_nil_of_length_eq_zero (by omega)

/-- A `(` is not the last of balanced tokens. -/
theorem Stoppable.ne_leftParen (hs : Stoppable (rest ++ [token])) : token.kind ≠ .leftParen := by
  intro hkind
  have hbefore := hs.balanced.1 rest (List.prefix_append _ _)
  have hall := hs.balanced.2
  rw [nesting_append, nesting_cons, hkind] at hall
  simp at hall
  omega

/-- **Where an operand is needed** only a `*` or a `/` is seen past the
end. -/
theorem At.exists_rest_of_needOperand (hs : Stoppable tokens)
    (h : At tokens p (.needOperand pending groups))
    (hnonempty : p.taken = [] → p.kind ≠ .endOfInput) (hkind : p.kind.productOp? = none) :
    ∃ token rest, p.rest = token :: rest := by
  cases hrest : p.rest with
  | cons token rest => exact ⟨token, rest, rfl⟩
  | nil =>
    exfalso
    cases htaken : p.taken with
    | nil => exact hnonempty htaken (Cursor.kind_of_empty hrest htaken)
    | cons last before =>
      have hcut := h.once
      rw [htaken, hrest, List.append_nil, List.reverse_cons] at hcut
      have hunsigned : last.kind.isSign = false := hs.unsigned last (by simp [← hcut])
      have hopen : last.kind ≠ .leftParen := Stoppable.ne_leftParen (hcut ▸ hs)
      have hend : last.kind ≠ .endOfInput := h.before last (by simp [htaken])
      have hterm : last.kind.endsTerm = false :=
        h.place last.kind (Cursor.previous?_eq htaken)
      rw [Cursor.kind_of_end hrest htaken] at hkind
      cases hlast : last.kind <;>
        simp_all [TokenKind.isSign, TokenKind.endsTerm, TokenKind.productOp?]

/-- **After a term** only a number or a `)` is seen past the end. -/
theorem At.exists_rest_of_haveTerm (h : At tokens p (.haveTerm sum? e groups))
    (hkind : p.kind.endsTerm = false) : ∃ token rest, p.rest = token :: rest := by
  cases hrest : p.rest with
  | cons token rest => exact ⟨token, rest, rfl⟩
  | nil =>
    obtain ⟨k, hprevious, hends⟩ := h.place
    obtain ⟨last, hlast, rfl⟩ := Option.map_eq_some_iff.1 hprevious
    obtain ⟨before, htaken⟩ := List.head?_eq_some_iff.1 hlast
    rw [Cursor.kind_of_end hrest htaken, hends] at hkind
    cases hkind

theorem At.taken_ne_nil (h : At tokens p (.haveTerm sum? e groups)) : p.taken ≠ [] := by
  intro htaken
  cases h.start htaken

theorem At.exists_rest_of_groups (hs : Stoppable tokens) (h : At tokens p state)
    (hgroups : state.groups ≠ []) : ∃ token rest, p.rest = token :: rest :=
  List.exists_cons_of_ne_nil fun hrest => hgroups (h.groups_of_end hs hrest)

/-! ## What the machine reports -/

/-- Where no operand begins, the machine finds one missing, past the end
too. -/
theorem At.resume_missingOperand (h : At tokens p (.needOperand pending groups))
    (hready : Ready maxDepth p pending groups) (hnumber : ∀ value, p.kind ≠ .number value)
    (hopen : p.kind ≠ .leftParen) (hsign : p.kind.isSign = false) :
    resume maxDepth (.needOperand pending groups) p =
      .error ⟨.missingOperand p.previous? p.kind, p.span⟩ := by
  cases hrest : p.rest with
  | nil =>
    have htaken : p.taken ≠ [] := fun htaken =>
      hready.nonempty htaken (Cursor.kind_of_empty hrest htaken)
    obtain ⟨last, before, htaken⟩ := List.exists_cons_of_ne_nil htaken
    rw [resume_of_end htaken hrest, Cursor.kind_of_end hrest htaken,
      Cursor.span_of_end hrest htaken, Cursor.previous?_eq htaken]
    rfl
  | cons token rest =>
    rw [Cursor.kind_eq hrest] at hnumber hopen hsign
    rw [Cursor.kind_eq hrest, Cursor.span_eq hrest]
    by_cases hend : token.kind = .endOfInput
    · have htaken : p.taken ≠ [] := fun htaken =>
        hready.nonempty htaken ((Cursor.kind_eq hrest).trans hend)
      rw [resume_of_endOfInput htaken hrest hend, finish, hready.opening?_eq_none hrest]
    · refine h.resume_of_step hrest hend ?_
      rw [step, hready.opening?_eq_none hrest]
      cases hkind : token.kind <;>
        simp_all [stepOperand, TokenKind.isSign]

/-- The machine looks just after a `(` before it reads on. -/
theorem At.resume_opening {paren : Span} {outer : Pending} (hs : Stoppable tokens)
    (h : At tokens p (.needOperand .none (⟨paren, outer⟩ :: groups)))
    (hfault : ∀ token rest, p.rest = token :: rest →
      opening? maxDepth .none (⟨paren, outer⟩ :: groups) token = some fault) :
    resume maxDepth (.needOperand .none (⟨paren, outer⟩ :: groups)) p = .error fault := by
  obtain ⟨token, rest, hrest⟩ := h.exists_rest_of_groups hs (by simp [State.groups])
  have hopening := hfault token rest hrest
  by_cases hend : token.kind = .endOfInput
  · have htaken : p.taken ≠ [] := fun htaken => by cases h.start htaken
    rw [resume_of_endOfInput htaken hrest hend, finish, hopening]
  · refine h.resume_of_step hrest hend ?_
    rw [step, hopening]

/-- In a group, what does not go on with it has to close it. -/
theorem At.resume_missingClose {nearest : Open} (hs : Stoppable tokens)
    (h : At tokens p (.haveTerm sum? e (nearest :: groups))) (hsum : p.kind.sumOp? = none)
    (hproduct : p.kind.productOp? = none) (hclose : p.kind ≠ .rightParen) :
    resume maxDepth (.haveTerm sum? e (nearest :: groups)) p =
      .error ⟨.missingClose p.kind, p.span⟩ := by
  obtain ⟨token, rest, hrest⟩ := h.exists_rest_of_groups hs (by simp [State.groups])
  rw [Cursor.kind_eq hrest] at hsum hproduct hclose
  rw [Cursor.kind_eq hrest, Cursor.span_eq hrest]
  by_cases hend : token.kind = .endOfInput
  · rw [resume_of_endOfInput h.taken_ne_nil hrest hend, finish]
  · refine h.resume_of_step hrest hend ?_
    rw [step]
    cases hkind : token.kind <;>
      simp_all [stepTerm, TokenKind.sumOp?, TokenKind.productOp?]

/-- Outside of groups, what does not go on with an expression is left over,
past the end too. -/
theorem At.resume_trailing (h : At tokens p (.haveTerm sum? e [])) (hsum : p.kind.sumOp? = none)
    (hproduct : p.kind.productOp? = none) (hend : p.kind ≠ .endOfInput) :
    resume maxDepth (.haveTerm sum? e []) p = .error ⟨.trailing p.kind, p.span⟩ := by
  cases hrest : p.rest with
  | nil =>
    obtain ⟨last, before, htaken⟩ := List.exists_cons_of_ne_nil h.taken_ne_nil
    rw [resume_of_end htaken hrest, Cursor.kind_of_end hrest htaken,
      Cursor.span_of_end hrest htaken]
    rfl
  | cons token rest =>
    rw [Cursor.kind_eq hrest] at hsum hproduct hend
    rw [Cursor.kind_eq hrest, Cursor.span_eq hrest]
    refine h.resume_of_step hrest hend ?_
    rw [step]
    cases hkind : token.kind <;>
      simp_all [stepTerm, TokenKind.sumOp?, TokenKind.productOp?]

/-- At the end of the text a complete expression is the tree. -/
theorem At.resume_complete (h : At tokens p (.haveTerm sum? e [])) (hend : p.kind = .endOfInput) :
    resume maxDepth (.haveTerm sum? e []) p = .ok (complete sum? e) := by
  obtain ⟨token, rest, hrest⟩ := h.exists_rest_of_haveTerm (by rw [hend]; rfl)
  rw [resume_of_endOfInput h.taken_ne_nil hrest ((Cursor.kind_eq hrest).symm.trans hend)]
  rfl

/-! ## Side by side -/

/-- What a computation of the descent does at a cursor, told by the machine
in the state it has there. Either the computation has a result, and the
machine gets to a state for the new place; or it reports what the machine
finds. -/
inductive Follows {α : Type} (maxDepth : Nat) (tokens : List Token) (c : Nat → Descent α)
    (p : Cursor) (state : State) (after : α → Cursor → State → Prop) : Prop
  | returns {a : α} {q : Cursor} {state' : State} (ends : Ends c p (some a, q))
      (there : At tokens q state') (same : resume maxDepth state p = resume maxDepth state' q)
      (shorter : q.rest.length ≤ p.rest.length) (holds : after a q state')
  | rejects {q : Cursor} {fault : Fault} (ends : Ends c p (none, q)) (faults : q.faults = [fault])
      (same : resume maxDepth state p = .error fault) (within : Within tokens q)

section Rules

variable {α β : Type} {c c' : Nat → Descent α} {f : Nat → α → Descent β}
  {after : α → Cursor → State → Prop} {after' : β → Cursor → State → Prop}

theorem Follows.of_ends (h : Follows maxDepth tokens c' p state after)
    (hends : ∀ {outcome}, Ends c' p outcome → Ends c p outcome) :
    Follows maxDepth tokens c p state after := by
  cases h with
  | returns ends there same shorter holds => exact .returns (hends ends) there same shorter holds
  | rejects ends faults same within => exact .rejects (hends ends) faults same within

/-- A call of a function follows the machine as its body does. -/
theorem Follows.call (h : Follows maxDepth tokens (fun fuel => c (fuel + 1)) p state after) :
    Follows maxDepth tokens c p state after :=
  h.of_ends Ends.call

theorem Follows.get {f : Nat → Cursor → Descent α}
    (h : Follows maxDepth tokens (fun fuel => f fuel p) p state after) :
    Follows maxDepth tokens (fun fuel => get >>= f fuel) p state after :=
  h.of_ends id

theorem Follows.pure {a : α} (h : At tokens p state) (holds : after a p state) :
    Follows maxDepth tokens (fun _ => Pure.pure a) p state after :=
  .returns (.of_runOn fun _ => runOn_pure a p) h rfl (Nat.le_refl _) holds

theorem Follows.reject {cause : Cause} {span : Span} (h : At tokens p state)
    (same : resume maxDepth state p = .error ⟨cause, span⟩) :
    Follows maxDepth tokens (fun _ => Descent.reject cause span) p state after := by
  refine .rejects (.of_runOn fun _ => runOn_reject cause span p) ?_ same ⟨h.once, h.before⟩
  rw [Cursor.reporting, h.clean]
  rfl

/-- One computation after another. -/
theorem Follows.bind (h : Follows maxDepth tokens c p state after)
    (hnext : ∀ a q state', At tokens q state' → q.rest.length ≤ p.rest.length →
      after a q state' → Follows maxDepth tokens (fun fuel => f fuel a) q state' after') :
    Follows maxDepth tokens (fun fuel => c fuel >>= f fuel) p state after' := by
  cases h with
  | @returns a q state' ends there same shorter holds =>
    cases hnext a q state' there shorter holds with
    | returns ends' there' same' shorter' holds' =>
      exact .returns (ends.bind ends') there' (same.trans same') (Nat.le_trans shorter' shorter)
        holds'
    | rejects ends' faults same' within =>
      exact .rejects (ends.bind ends') faults (same.trans same') within
  | rejects ends faults same within => exact .rejects ends.bind_none faults same within

/-- A token is taken where the machine steps over it. -/
theorem Follows.advance {f : Nat → Span → Descent α} (h : At tokens p state)
    (hrest : p.rest = token :: rest) (hstep : step maxDepth p.previous? state token = .ok state')
    (hnext : At tokens p.advanced state' →
      Follows maxDepth tokens (fun fuel => f fuel token.span) p.advanced state' after) :
    Follows maxDepth tokens (fun fuel => advance >>= f fuel) p state after := by
  obtain ⟨hat, hsame⟩ := h.advanced hrest hstep
  have hends : Ends (fun _ => Descent.advance) p (some token.span, p.advanced) :=
    .of_runOn fun _ => by rw [← Cursor.span_eq hrest]; rfl
  have hlength := Nat.le_of_lt (Cursor.length_advanced_lt hrest)
  cases hnext hat with
  | returns ends there same shorter holds =>
    exact .returns (hends.bind ends) there (hsame.trans same) (Nat.le_trans shorter hlength) holds
  | rejects ends faults same within =>
    exact .rejects (hends.bind ends) faults (hsame.trans same) within

end Rules

/-! ## Signs -/

/-- The run of signs that was counted. -/
def runOfSigns (start : Span) (count minuses : Nat) : Option Signs :=
  if count = 0 then none else some ⟨start, minuses % 2 == 1⟩

/-- One more sign is counted. The first one begins the run. -/
theorem addSign_runOfSigns {start s : Span} {count minuses : Nat} {minus : Bool}
    (hfirst : count = 0 → s = start ∧ minuses = 0) :
    some (addSign (runOfSigns start count minuses) s minus) =
      runOfSigns start (count + 1) (if minus then minuses + 1 else minuses) := by
  by_cases hcount : count = 0
  · obtain ⟨rfl, rfl⟩ := hfirst hcount
    subst hcount
    cases minus <;> rfl
  · have hparity : ((minuses % 2 == 1) ^^ minus) =
        ((if minus then minuses + 1 else minuses) % 2 == 1) := by
      rcases Nat.mod_two_eq_zero_or_one minuses with h | h <;> cases minus <;>
        simp [h, Nat.add_mod]
    rw [runOfSigns, if_neg hcount, runOfSigns, if_neg (Nat.succ_ne_zero count), ← hparity]
    rfl

theorem signed_runOfSigns (start : Span) (count minuses : Nat) (operand : Expr) :
    signed (runOfSigns start count minuses) operand =
      if count = 0 then operand
      else if minuses % 2 = 1 then .negate (start.merge operand.span) operand
      else operand.withSpan (start.merge operand.span) := by
  by_cases hcount : count = 0
  · rw [runOfSigns, if_pos hcount, if_pos hcount]
    rfl
  · rw [runOfSigns, if_neg hcount, if_neg hcount, signed]
    simp only [beq_iff_eq]

theorem productOp?_of_isSign {k : TokenKind} (h : k.isSign = true) : k.productOp? = none := by
  cases k <;> first | rfl | cases h

/-- **Signs are taken** up to the next token that is none. -/
theorem follows_signs (hs : Stoppable tokens) {start : Span} {count minuses : Nat}
    (h : At tokens p (.needOperand ⟨sum?, product?, runOfSigns start count minuses⟩ groups))
    (hready : Ready maxDepth p ⟨sum?, product?, runOfSigns start count minuses⟩ groups)
    (hfirst : count = 0 → p.span = start ∧ minuses = 0) :
    Follows maxDepth tokens (fun fuel => signs fuel count minuses) p
      (.needOperand ⟨sum?, product?, runOfSigns start count minuses⟩ groups)
      fun counts q state' =>
        state' = .needOperand ⟨sum?, product?, runOfSigns start counts.1 counts.2⟩ groups ∧
        q.kind.isSign = false ∧
        Ready maxDepth q ⟨sum?, product?, runOfSigns start counts.1 counts.2⟩ groups := by
  induction hlength : p.rest.length using Nat.strongRecOn generalizing p count minuses with
  | ind n ih =>
    refine .call ?_
    simp only [signs]
    refine .get ?_
    by_cases hsign : p.kind.isSign = true
    · obtain ⟨token, rest, hrest⟩ :=
        h.exists_rest_of_needOperand hs hready.nonempty (productOp?_of_isSign hsign)
      have hkind := Cursor.kind_eq hrest
      have hstep := hready.step_of_moves hrest (.sign (hkind ▸ hsign))
      dsimp only at hstep
      rw [addSign_runOfSigns (Cursor.span_eq hrest ▸ hfirst), ← hkind] at hstep
      simp only [if_pos hsign]
      refine .advance h hrest hstep fun hnext => ?_
      have hwaits : (⟨sum?, product?, runOfSigns start (count + 1)
          (if p.kind == .minus then minuses + 1 else minuses)⟩ : Pending) ≠ .none := by
        simp [Pending.none, runOfSigns]
      exact ih p.advanced.rest.length (hlength ▸ Cursor.length_advanced_lt hrest) hnext
        (.advanced hready.depth hwaits hrest) (by simp) rfl
    · simp only [if_neg hsign]
      exact .pure h ⟨rfl, by simpa using hsign, hready⟩

/-! ## Operands -/

/-- What an expression leaves: a sum that is complete, and no operator
after it. -/
def AfterExpression (groups : List Open) (e : Expr) (q : Cursor) (state : State) : Prop :=
  ∃ sum? term, state = .haveTerm sum? term groups ∧ complete sum? term = e ∧
    q.kind.sumOp? = none ∧ q.kind.productOp? = none

/-- Expressions are followed where fewer than `n` tokens are left. -/
def FollowsBelow (maxDepth : Nat) (tokens : List Token) (n : Nat) : Prop :=
  ∀ (p : Cursor) (groups : List Open), p.rest.length < n →
    At tokens p (.needOperand .none groups) → Ready maxDepth p .none groups →
    Follows maxDepth tokens (fun fuel => expression maxDepth fuel groups.length) p
      (.needOperand .none groups) (AfterExpression groups)

/-- **A group**, given that the expressions inside it are followed. -/
theorem follows_group (hs : Stoppable tokens) (ih : FollowsBelow maxDepth tokens n)
    (hlength : p.rest.length ≤ n) (h : At tokens p (.needOperand pending groups))
    (hready : Ready maxDepth p pending groups) (hkind : p.kind = .leftParen) :
    Follows maxDepth tokens (fun fuel => group maxDepth fuel groups.length) p
      (.needOperand pending groups) fun e _ state' => state' = .ofOperand pending e groups := by
  obtain ⟨⟨kind, s⟩, rest, hrest⟩ :=
    h.exists_rest_of_needOperand hs hready.nonempty (by rw [hkind]; rfl)
  obtain rfl : kind = .leftParen := (Cursor.kind_eq hrest).symm.trans hkind
  refine .call ?_
  simp only [group]
  refine .advance h hrest (hready.step_of_moves hrest (.opens s)) fun hinside => .get ?_
  by_cases hclose : p.advanced.kind = .rightParen
  · simp only [if_pos hclose]
    refine .reject hinside (hinside.resume_opening hs fun token rest hrest => ?_)
    rw [Cursor.kind_eq hrest] at hclose
    rw [Cursor.span_eq hrest]
    simp [opening?, justOpened?, hclose]
  simp only [if_neg hclose]
  by_cases hdepth : maxDepth < groups.length + 1
  · simp only [if_pos hdepth]
    refine .reject hinside (hinside.resume_opening hs fun token rest hrest => ?_)
    rw [Cursor.kind_eq hrest] at hclose
    simp [opening?, justOpened?, hclose, hdepth]
  simp only [if_neg hdepth]
  have hready' : Ready maxDepth p.advanced .none (⟨s, pending⟩ :: groups) :=
    ⟨Nat.not_lt.1 hdepth, fun hkind => absurd hkind hclose, fun htaken => by
      cases hinside.start htaken⟩
  have hfewer := Nat.lt_of_lt_of_le (Cursor.length_advanced_lt hrest) hlength
  refine (ih p.advanced _ hfewer hinside hready').bind ?_
  rintro inner q state' hq - ⟨sum?, term, rfl, rfl, hsum, hproduct⟩
  refine .get ?_
  by_cases hclosed : q.kind = .rightParen
  · simp only [if_pos hclosed]
    obtain ⟨⟨kind, s'⟩, rest', hrest'⟩ := hq.exists_rest_of_groups hs (by simp [State.groups])
    obtain rfl : kind = .rightParen := (Cursor.kind_eq hrest').symm.trans hclosed
    have hstep : step maxDepth q.previous? (.haveTerm sum? term (⟨s, pending⟩ :: groups))
        ⟨.rightParen, s'⟩ = .ok _ := step_eq_ok.2 ⟨rfl, .closes s'⟩
    exact .advance hq hrest' hstep fun hdone => .pure hdone rfl
  · simp only [if_neg hclosed]
    exact .reject hq (hq.resume_missingClose hs hsum hproduct hclosed)

theorem follows_primary (hs : Stoppable tokens) (ih : FollowsBelow maxDepth tokens n)
    (hlength : p.rest.length ≤ n) (h : At tokens p (.needOperand pending groups))
    (hready : Ready maxDepth p pending groups) (hsign : p.kind.isSign = false) :
    Follows maxDepth tokens (fun fuel => primary maxDepth fuel groups.length) p
      (.needOperand pending groups) fun e _ state' => state' = .ofOperand pending e groups := by
  refine .call ?_
  simp only [primary]
  refine .get ?_
  have hmissing := h.resume_missingOperand hready
  cases hkind : p.kind with
  | number value =>
    obtain ⟨⟨kind, s⟩, rest, hrest⟩ :=
      h.exists_rest_of_needOperand hs hready.nonempty (by rw [hkind]; rfl)
    obtain rfl : kind = .number value := (Cursor.kind_eq hrest).symm.trans hkind
    exact .advance h hrest (hready.step_of_moves hrest (.number s value)) fun hnext =>
      .pure hnext rfl
  | leftParen => exact follows_group hs ih hlength h hready hkind
  | plus | minus => simp [hkind, TokenKind.isSign] at hsign
  | star | slash | rightParen | endOfInput =>
    rw [hkind] at hmissing
    exact .reject h (hmissing (by simp) (by simp) rfl)

/-- **A run of signs and its operand**, for whatever sum and product wait. -/
theorem follows_factor (hs : Stoppable tokens) (ih : FollowsBelow maxDepth tokens n)
    (hlength : p.rest.length ≤ n) (h : At tokens p (.needOperand ⟨sum?, product?, none⟩ groups))
    (hready : Ready maxDepth p ⟨sum?, product?, none⟩ groups) :
    Follows maxDepth tokens (fun fuel => factor maxDepth fuel groups.length) p
      (.needOperand ⟨sum?, product?, none⟩ groups)
      fun e _ state' => state' = .haveTerm sum? (complete product? e) groups := by
  refine .call ?_
  simp only [factor]
  refine .get ?_
  have hsigns : Follows maxDepth tokens (fun fuel => signs fuel 0 0) p
      (.needOperand ⟨sum?, product?, runOfSigns p.span 0 0⟩ groups) _ :=
    follows_signs hs h hready fun _ => ⟨rfl, rfl⟩
  refine hsigns.bind ?_
  rintro ⟨count, minuses⟩ q state' hq hshorter ⟨rfl, hsign, hready'⟩
  refine (follows_primary hs ih (Nat.le_trans hshorter hlength) hq hready' hsign).bind ?_
  rintro operand q' state' hq' - rfl
  have hsigned := signed_runOfSigns p.span count minuses operand
  by_cases hcount : count = 0
  · simp only [if_pos hcount] at hsigned ⊢
    refine .pure hq' ?_
    rw [State.ofOperand, hsigned]
  · simp only [if_neg hcount] at hsigned ⊢
    refine .pure hq' ?_
    rw [State.ofOperand, hsigned]

/-! ## Chains -/

theorem exists_rest_of_operator (h : At tokens p (.haveTerm sum? e groups)) {op : BinaryOp}
    (hop : p.kind.sumOp? = some op ∨ p.kind.productOp? = some op) :
    ∃ token rest, p.rest = token :: rest := by
  refine h.exists_rest_of_haveTerm ?_
  cases hkind : p.kind <;> simp_all [TokenKind.sumOp?, TokenKind.productOp?, TokenKind.endsTerm]

/-- **Factors are joined** for as long as an operator of theirs comes. -/
theorem follows_products (hs : Stoppable tokens) (ih : FollowsBelow maxDepth tokens n)
    (hlength : p.rest.length ≤ n) (hdepth : groups.length ≤ maxDepth)
    (h : At tokens p (.haveTerm sum? left groups)) :
    Follows maxDepth tokens (fun fuel => products maxDepth fuel groups.length left) p
      (.haveTerm sum? left groups)
      fun e q state' => state' = .haveTerm sum? e groups ∧ q.kind.productOp? = none := by
  induction hm : p.rest.length using Nat.strongRecOn generalizing p left with
  | ind m ihm =>
    refine .call ?_
    simp only [products]
    refine .get ?_
    cases hop : p.kind.productOp? with
    | none => exact .pure h ⟨rfl, hop⟩
    | some op =>
      obtain ⟨token, rest, hrest⟩ := exists_rest_of_operator h (.inr hop)
      have hstep : step maxDepth p.previous? (.haveTerm sum? left groups) token = .ok _ :=
        step_eq_ok.2 ⟨rfl, .product (Cursor.kind_eq hrest ▸ hop)⟩
      have hfewer := Cursor.length_advanced_lt hrest
      refine .advance h hrest hstep fun hnext => ?_
      have hready : Ready maxDepth p.advanced ⟨sum?, some ⟨left, op⟩, none⟩ groups :=
        .advanced hdepth (by simp [Pending.none]) hrest
      refine (follows_factor hs ih (by omega) hnext hready).bind ?_
      rintro right q state' hq hshorter rfl
      exact ihm q.rest.length (by omega) (by omega) hq rfl

/-- **A term**, for whatever sum waits. -/
theorem follows_term (hs : Stoppable tokens) (ih : FollowsBelow maxDepth tokens n)
    (hlength : p.rest.length ≤ n) (h : At tokens p (.needOperand ⟨sum?, none, none⟩ groups))
    (hready : Ready maxDepth p ⟨sum?, none, none⟩ groups) :
    Follows maxDepth tokens (fun fuel => term maxDepth fuel groups.length) p
      (.needOperand ⟨sum?, none, none⟩ groups)
      fun e q state' => state' = .haveTerm sum? e groups ∧ q.kind.productOp? = none := by
  refine .call ?_
  simp only [term]
  refine (follows_factor hs ih hlength h hready).bind ?_
  rintro left q state' hq hshorter rfl
  exact follows_products hs ih (Nat.le_trans hshorter hlength) hready.depth hq

/-- **Terms are joined** for as long as an operator of theirs comes. -/
theorem follows_sums {last : Expr} (hs : Stoppable tokens) (ih : FollowsBelow maxDepth tokens n)
    (hlength : p.rest.length ≤ n) (hdepth : groups.length ≤ maxDepth)
    (h : At tokens p (.haveTerm sum? last groups)) (hproduct : p.kind.productOp? = none)
    (hleft : complete sum? last = left) :
    Follows maxDepth tokens (fun fuel => sums maxDepth fuel groups.length left) p
      (.haveTerm sum? last groups) (AfterExpression groups) := by
  induction hm : p.rest.length using Nat.strongRecOn generalizing p left sum? last with
  | ind m ihm =>
    refine .call ?_
    simp only [sums]
    refine .get ?_
    cases hop : p.kind.sumOp? with
    | none => exact .pure h ⟨sum?, last, rfl, hleft, hop, hproduct⟩
    | some op =>
      obtain ⟨token, rest, hrest⟩ := exists_rest_of_operator h (.inl hop)
      have hstep : step maxDepth p.previous? (.haveTerm sum? last groups) token = .ok _ :=
        step_eq_ok.2 ⟨rfl, .sum (Cursor.kind_eq hrest ▸ hop)⟩
      rw [hleft] at hstep
      have hfewer := Cursor.length_advanced_lt hrest
      refine .advance h hrest hstep fun hnext => ?_
      have hready : Ready maxDepth p.advanced ⟨some ⟨left, op⟩, none, none⟩ groups :=
        .advanced hdepth (by simp [Pending.none]) hrest
      refine (follows_term hs ih (by omega) hnext hready).bind ?_
      rintro right q state' hq hshorter ⟨rfl, hproduct'⟩
      exact ihm q.rest.length (by omega) (by omega) hq hproduct' rfl rfl

/-- **The two ways of reading an expression go together.** -/
theorem follows_expression (hs : Stoppable tokens) (n : Nat) : FollowsBelow maxDepth tokens n := by
  induction n with
  | zero => exact fun p groups hlength => absurd hlength (Nat.not_lt_zero _)
  | succ n ih =>
    intro p groups hlength h hready
    have hle := Nat.le_of_lt_succ hlength
    refine .call ?_
    simp only [expression]
    refine (follows_term hs ih hle h hready).bind ?_
    rintro left q state' hq hshorter ⟨rfl, hproduct⟩
    exact follows_sums hs ih (Nat.le_trans hshorter hle) hready.depth hq hproduct rfl

/-! ## The whole list -/

theorem at_start (tokens : List Token) : At tokens (.start tokens) .start where
  once := rfl
  before := by simp [Cursor.start]
  groups := rfl
  place := by simp [State.start, Place, Cursor.previous?, Cursor.start]
  start _ := rfl
  clean := rfl

theorem follows_whole (hs : Stoppable tokens)
    (hnonempty : (Cursor.start tokens).kind ≠ .endOfInput) :
    Follows maxDepth tokens (whole maxDepth) (.start tokens) .start
      fun e q state' => resume maxDepth state' q = .ok e := by
  have hready : Ready maxDepth (.start tokens) .none [] :=
    ⟨Nat.zero_le _, fun _ => rfl, fun _ => hnonempty⟩
  have hexpression := follows_expression hs (tokens.length + 1) (.start tokens) []
    (Nat.lt_succ_self _) (at_start tokens) hready
  show Follows maxDepth tokens (fun fuel => whole maxDepth fuel) _ _ _
  simp only [whole]
  refine hexpression.bind ?_
  rintro e q state' hq - ⟨sum?, term, rfl, rfl, hsum, hproduct⟩
  refine .get ?_
  by_cases hend : q.kind = .endOfInput
  · simp only [if_pos hend]
    exact .pure hq (hq.resume_complete hend)
  · simp only [if_neg hend]
    exact .reject hq (hq.resume_trailing hsum hproduct hend)

theorem read_of_kind_start (h : (Cursor.start tokens).kind = .endOfInput) :
    Expr.read maxDepth tokens = .error ⟨.emptyExpression, (Cursor.start tokens).span⟩ := by
  cases tokens with
  | nil => rfl
  | cons token rest =>
    have hkind : token.kind = .endOfInput := h
    rw [Expr.read, if_pos hkind]
    rfl

/-- What a list of tokens comes to, by the tree and the faults that are
given back: a tree and no fault, or no tree and exactly one fault. -/
inductive Answers : Except Fault Expr → Option Expr → List Fault → Prop
  | tree (e : Expr) : Answers (.ok e) (some e) []
  | fault (fault : Fault) : Answers (.error fault) none [fault]

theorem exists_ends_of_reject {limits : Limits} {fault : Fault}
    (h : ∀ fuel, runOn (parse limits tokens fuel) (.start tokens) =
      runOn (reject fault.cause fault.span) (.start tokens)) :
    ∃ tree? p, Ends (parse limits tokens) (.start tokens) (tree?, p) ∧
      Answers (.error fault) tree? p.faults ∧ Within tokens p :=
  ⟨none, (Cursor.start tokens).reporting fault,
    .of_runOn fun fuel => (h fuel).trans (runOn_reject ..), .fault fault,
    rfl, (at_start tokens).before⟩

/-- **A descent ends**, and with the answer of the machine. -/
theorem exists_ends_parse (limits : Limits)
    (hlast : ∀ t ∈ tokens.getLast?, t.kind.isSign = false) :
    ∃ tree? p, Ends (parse limits tokens) (.start tokens) (tree?, p) ∧
      Answers (ofTokens limits tokens) tree? p.faults ∧ Within tokens p := by
  simp only [ofTokens]
  cases hlong : tooLong? limits.clamped.maxTokens tokens with
  | some fault =>
    refine exists_ends_of_reject fun fuel => ?_
    simp only [parse, hlong]
  | none =>
    cases hbalance : unbalanced? [] tokens with
    | some fault =>
      refine exists_ends_of_reject fun fuel => ?_
      simp only [parse, hlong, hbalance]
    | none =>
      have hs : Stoppable tokens := ⟨(unbalanced?_nil_eq_none tokens).1 hbalance, hlast⟩
      dsimp only
      by_cases hempty : (Cursor.start tokens).kind = .endOfInput
      · rw [read_of_kind_start hempty]
        refine exists_ends_of_reject fun fuel => ?_
        simp only [parse, hlong, hbalance, runOn_get, if_pos hempty]
      · have hparse : ∀ fuel, runOn (parse limits tokens fuel) (.start tokens) =
            runOn (whole limits.clamped.maxDepth fuel) (.start tokens) := fun fuel => by
          simp only [parse, hlong, hbalance, runOn_get, if_neg hempty]
        -- from the start the machine resumes as reading the whole list
        cases follows_whole hs hempty with
        | @returns e q state' ends there same _ holds =>
          have hread : Expr.read limits.clamped.maxDepth tokens = .ok e := same.trans holds
          rw [hread]
          exact ⟨some e, q, ends.congr hparse, there.clean ▸ .tree e, there.toWithin⟩
        | @rejects q fault ends faults same within =>
          have hread : Expr.read limits.clamped.maxDepth tokens = .error fault := same
          rw [hread]
          exact ⟨none, q, ends.congr hparse, faults ▸ .fault fault, within⟩

/-! ## Beyond the end of the text -/

theorem readAfter_stop {stop : Token} (hstop : stop.kind = .endOfInput) (previous : Token)
    (state : State) (u v v' : List Token) :
    readAfter maxDepth previous state (u ++ stop :: v) =
      readAfter maxDepth previous state (u ++ stop :: v') := by
  induction u generalizing previous state with
  | nil => simp only [List.nil_append, readAfter, if_pos hstop]
  | cons t u ih =>
    rw [List.cons_append, List.cons_append, readAfter, readAfter]
    by_cases hend : t.kind = .endOfInput
    · rw [if_pos hend, if_pos hend]
    · rw [if_neg hend, if_neg hend]
      cases step maxDepth (some previous.kind) state t with
      | error => rfl
      | ok next => exact ih t next

theorem read_stop {stop : Token} (hstop : stop.kind = .endOfInput) (u v v' : List Token) :
    Expr.read maxDepth (u ++ stop :: v) = Expr.read maxDepth (u ++ stop :: v') := by
  cases u with
  | nil => simp only [List.nil_append, Expr.read, if_pos hstop]
  | cons t u =>
    rw [List.cons_append, List.cons_append, Expr.read, Expr.read]
    by_cases hend : t.kind = .endOfInput
    · rw [if_pos hend, if_pos hend]
    · rw [if_neg hend, if_neg hend]
      cases step maxDepth none .start t with
      | error => rfl
      | ok next => exact readAfter_stop hstop t next u v v'

/-- What stands behind an end of the text matters to the checks alone. -/
theorem ofTokens_stop {limits : Limits} {stop : Token} (hstop : stop.kind = .endOfInput)
    {u v v' : List Token}
    (hlong : tooLong? limits.clamped.maxTokens (u ++ stop :: v) =
      tooLong? limits.clamped.maxTokens (u ++ stop :: v'))
    (hbalance : unbalanced? [] (u ++ stop :: v) = unbalanced? [] (u ++ stop :: v')) :
    ofTokens limits (u ++ stop :: v) = ofTokens limits (u ++ stop :: v') := by
  rw [ofTokens, ofTokens, hlong, hbalance, read_stop hstop u v v']

/-- Where the text does not end there is no tree. -/
theorem exists_end_of_ofTokens {limits : Limits} (h : ofTokens limits tokens = .ok e) :
    ∃ t ∈ tokens, t.kind = .endOfInput := by
  obtain ⟨-, -, hread⟩ := ofTokens_eq_ok_iff_read.1 h
  obtain ⟨w, t, rest, -, -, rfl, hend, -, -⟩ := read_eq_ok_iff_walks.1 hread
  exact ⟨t, by simp, hend⟩

/-- **Every list of tokens comes to one answer** if it does not end in a sign,
whatever the limits, also where the text ends in its middle or nowhere. The
descent ends, with a tree and no fault or with no tree and one fault. It has
taken no token twice, and none at or behind the first end of the text: what
stands behind that matters to the checks on the whole list alone. Without an
end of the text there is no tree, though the last token is seen again past
the end of the list. -/
theorem parse_ends (limits : Limits) (hlast : ∀ t ∈ tokens.getLast?, t.kind.isSign = false) :
    (∃ tree? p, Ends (parse limits tokens) (.start tokens) (tree?, p) ∧
      (∀ outcome, Ends (parse limits tokens) (.start tokens) outcome → outcome = (tree?, p)) ∧
      Answers (ofTokens limits tokens) tree? p.faults ∧ Within tokens p ∧
      p.taken.reverse <+: beforeEnd tokens ∧
      ((∀ t ∈ tokens, t.kind ≠ .endOfInput) → tree? = none)) ∧
    ∀ u stop v v', tokens = u ++ stop :: v → stop.kind = .endOfInput →
      tooLong? limits.clamped.maxTokens tokens =
        tooLong? limits.clamped.maxTokens (u ++ stop :: v') →
      unbalanced? [] tokens = unbalanced? [] (u ++ stop :: v') →
      ofTokens limits tokens = ofTokens limits (u ++ stop :: v') := by
  constructor
  · obtain ⟨tree?, p, hends, hanswers, hwithin⟩ := exists_ends_parse limits hlast
    refine ⟨tree?, p, hends, fun _ hends' => hends'.unique hends, hanswers, hwithin,
      hwithin.taken_prefix, fun hne => ?_⟩
    generalize hanswer : ofTokens limits tokens = answer at hanswers
    generalize p.faults = faults at hanswers
    cases hanswers with
    | fault => rfl
    | tree e =>
      obtain ⟨t, ht, hend⟩ := exists_end_of_ofTokens hanswer
      exact absurd hend (hne t ht)
  · rintro u stop v v' rfl hstop hlong hbalance
    exact ofTokens_stop hstop hlong hbalance

/-- In `1*` the `*` is seen again where an operand should come, and is not
taken again. What comes behind the end of `1` changes nothing. -/
theorem parse_ends_open_product :
    let one : Token := ⟨.number (.ofInt 1), .point ⟨1, 1⟩⟩
    let star : Token := ⟨.star, .point ⟨1, 2⟩⟩
    let stop : Token := ⟨.endOfInput, .point ⟨1, 2⟩⟩
    (∀ t ∈ [one, star].getLast?, t.kind.isSign = false) ∧
      (∃ p, Ends (parse .standard [one, star]) (.start [one, star]) (none, p) ∧
        p.faults = [⟨.missingOperand (some .star) .star, .point ⟨1, 2⟩⟩] ∧
        p.taken.length ≤ 2) ∧
      (∀ t ∈ [one, stop, star, one].getLast?, t.kind.isSign = false) ∧
      ofTokens .standard [one, stop, star, one] = ofTokens .standard [one, stop] := by
  intro one star stop
  have hlast : ∀ t ∈ [one, star].getLast?, t.kind.isSign = false := by
    rintro _ ⟨⟩
    rfl
  have hlast' : ∀ t ∈ [one, stop, star, one].getLast?, t.kind.isSign = false := by
    rintro _ ⟨⟩
    rfl
  have hfault : ofTokens .standard [one, star] =
      .error ⟨.missingOperand (some .star) .star, .point ⟨1, 2⟩⟩ := rfl
  obtain ⟨⟨tree?, p, hends, -, hanswers, -, htaken, -⟩, -⟩ := parse_ends .standard hlast
  rw [hfault] at hanswers
  have hlength := htaken.length_le
  rw [List.length_reverse] at hlength
  refine ⟨hlast, ?_, hlast', (parse_ends .standard hlast').2 [one] stop _ [] rfl rfl rfl rfl⟩
  generalize hfaults : p.faults = faults at hanswers
  cases hanswers with
  | fault => exact ⟨p, hends, hfaults, hlength⟩

end Descent

end Abacus
