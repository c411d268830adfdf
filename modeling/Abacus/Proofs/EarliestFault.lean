import Abacus.Proofs.Refinement
import Abacus.Proofs.Refusal
import Abacus.Proofs.Stages
import Abacus.Proofs.Subexpressions

/-!
# EarliestFault

Reading fails at the first token that cannot be right. What has been walked
through can always be completed, by a number if an operand is missing and
a `)` for each open group, so it begins a sentence of the grammar. Where a
token is refused for the grammar no sentence goes on with it, since a
sentence is walked through as well, and a walk leads to one state only.
Where it is refused for the nesting the last `(` is the first that stands
too deep.
-/

namespace Abacus.Expr

variable {maxDepth maxDepth' : Nat} {previous? : Option TokenKind} {state state' mid : State}
  {pending : Pending} {groups : List Open} {token stop t : Token} {u v w : List Token}
  {fault : Fault}

/-! ## Sentences -/

/-- The tokens are a sentence of the grammar, nested however deep. -/
def IsSentence (w : List Token) : Prop :=
  ∃ e, Derives .expression w e

/-- Some sentence begins with the tokens. -/
def BeginsSentence (w : List Token) : Prop :=
  ∃ v, IsSentence (w ++ v)

/-- Some sentence with the end of the text after it begins with the tokens. -/
def BeginsText (w : List Token) : Prop :=
  ∃ v stop, IsSentence v ∧ stop.kind = .endOfInput ∧ w <+: v ++ [stop]

theorem BeginsSentence.of_append (h : BeginsSentence (u ++ v)) : BeginsSentence u := by
  obtain ⟨w, hw⟩ := h
  exact ⟨v ++ w, by rwa [← List.append_assoc]⟩

/-! ## Where reading stops -/

/-- `Refuses maxDepth state token fault`: in this state the token is refused,
for this fault. -/
inductive Refuses (maxDepth : Nat) : State → Token → Fault → Prop
  /-- The token does not fit, nor may the text end where it does. -/
  | unfit {state : State} {token : Token} {cause : Cause}
      (kind : cause.kind = .malformedExpression) (stuck : ∀ next, ¬ Moves state token next)
      (unfinished : token.kind = .endOfInput → ∀ sum? term, state ≠ .haveTerm sum? term []) :
      Refuses maxDepth state token ⟨cause, token.span⟩
  /-- The token closes the group that was just opened. -/
  | empty {nearest : Open} {groups : List Open} {token : Token}
      (closes : token.kind = .rightParen) :
      Refuses maxDepth (.needOperand .none (nearest :: groups)) token
        ⟨.emptyParentheses, nearest.paren.merge token.span⟩
  /-- The group that was just opened is nested too deep. -/
  | deep {nearest : Open} {groups : List Open} {token : Token}
      (kind : token.kind ≠ .rightParen) (depth : maxDepth < (nearest :: groups).length) :
      Refuses maxDepth (.needOperand .none (nearest :: groups)) token
        ⟨.nestedTooDeep maxDepth, nearest.paren⟩

theorem refuses_of_opening? (h : opening? maxDepth pending groups token = some fault) :
    Refuses maxDepth (.needOperand pending groups) token fault := by
  cases groups with
  | nil => cases h
  | cons nearest groups =>
    by_cases hpending : pending = .none
    · subst hpending
      simp only [opening?, justOpened?, if_pos] at h
      split at h
      · cases h
        exact .empty ‹_›
      · split at h
        · cases h
          exact .deep ‹_› ‹_›
        · cases h
    · simp only [opening?, justOpened?, if_neg hpending] at h
      cases h

theorem exists_of_stepOperand (h : stepOperand previous? pending groups token = .error fault) :
    ∃ cause, cause.kind = .malformedExpression ∧ fault = ⟨cause, token.span⟩ := by
  obtain ⟨kind, s⟩ := token
  cases kind <;> cases h <;> exact ⟨_, rfl, rfl⟩

theorem exists_of_stepTerm {sum? : Option Waiting} {term : Expr}
    (h : stepTerm sum? term groups token = .error fault) :
    ∃ cause, cause.kind = .malformedExpression ∧ fault = ⟨cause, token.span⟩ := by
  obtain ⟨kind, s⟩ := token
  cases kind <;> cases groups <;> cases h <;> exact ⟨_, rfl, rfl⟩

/-- A step that fails refuses its token. -/
theorem refuses_of_step (hne : token.kind ≠ .endOfInput)
    (h : step maxDepth previous? state token = .error fault) :
    Refuses maxDepth state token fault := by
  have hunfit : state.opening? maxDepth token = none →
      (∃ cause, cause.kind = .malformedExpression ∧ fault = ⟨cause, token.span⟩) →
      Refuses maxDepth state token fault := by
    rintro passes ⟨cause, hkind, rfl⟩
    refine .unfit hkind (fun next move => ?_) fun hend => absurd hend hne
    rw [step_eq_ok.2 ⟨passes, move⟩] at h
    cases h
  cases state with
  | haveTerm sum? term groups => exact hunfit rfl (exists_of_stepTerm h)
  | needOperand pending groups =>
    cases hopening : opening? maxDepth pending groups token with
    | some fault' =>
      simp only [step, hopening, Except.error.injEq] at h
      exact h ▸ refuses_of_opening? hopening
    | none =>
      simp only [step, hopening] at h
      exact hunfit hopening (exists_of_stepOperand h)

/-- Where the text may not end its end is refused. -/
theorem refuses_of_finish (hend : token.kind = .endOfInput)
    (h : finish maxDepth previous? state token = .error fault) :
    Refuses maxDepth state token fault := by
  have hstuck : ∀ next, ¬ Moves state token next := fun next move => move.ne_end hend
  cases state with
  | haveTerm sum? term groups => cases groups with
    | nil => cases h
    | cons =>
      cases h
      exact .unfit rfl hstuck fun _ _ _ heq => by cases heq
  | needOperand pending groups =>
    cases hopening : opening? maxDepth pending groups token with
    | some fault' =>
      simp only [finish, hopening, Except.error.injEq] at h
      exact h ▸ refuses_of_opening? hopening
    | none =>
      simp only [finish, hopening, Except.error.injEq] at h
      exact h ▸ .unfit rfl hstuck fun _ _ _ heq => by cases heq

/-- A walk from a state through the first of the tokens leads to a state that
refuses the next. -/
def Stops (maxDepth : Nat) (state : State) (tokens : List Token) (fault : Fault) : Prop :=
  ∃ u t v mid, tokens = u ++ t :: v ∧ Walks maxDepth state u mid ∧ Refuses maxDepth mid t fault

/-- Reading on after one token stops at it or later. -/
theorem stops_of_readFrom {rest : List Token} (hne : token.kind ≠ .endOfInput)
    (later : ∀ next, readAfter maxDepth token next rest = .error fault →
      Stops maxDepth next rest fault)
    (h : readFrom maxDepth token rest (step maxDepth previous? state token) = .error fault) :
    Stops maxDepth state (token :: rest) fault := by
  cases hstep : step maxDepth previous? state token with
  | error fault' =>
    rw [hstep] at h
    cases h
    exact ⟨[], token, rest, state, rfl, .nil _, refuses_of_step hne hstep⟩
  | ok next =>
    rw [hstep] at h
    obtain ⟨passes, move⟩ := step_eq_ok.1 hstep
    obtain ⟨u, t, v, mid, rfl, walk, refused⟩ := later next h
    exact ⟨token :: u, t, v, mid, rfl, .cons passes move walk, refused⟩

theorem stops_of_readAfter (previous : Token) (hne : ∀ t ∈ w, t.kind ≠ .endOfInput)
    (hend : stop.kind = .endOfInput)
    (h : readAfter maxDepth previous state (w ++ [stop]) = .error fault) :
    Stops maxDepth state (w ++ [stop]) fault := by
  induction w generalizing previous state with
  | nil =>
    rw [List.nil_append, readAfter, if_pos hend] at h
    exact ⟨[], stop, [], state, rfl, .nil _, refuses_of_finish hend h⟩
  | cons token w ih =>
    obtain ⟨htoken, hrest⟩ := List.forall_mem_cons.1 hne
    rw [List.cons_append, readAfter_cons _ _ htoken] at h
    exact stops_of_readFrom htoken (fun next => ih token hrest) h

/-- **Where reading fails** a token is refused after a walk from the start. -/
theorem stops_of_read (hne : ∀ t ∈ w, t.kind ≠ .endOfInput) (hend : stop.kind = .endOfInput)
    (h : read maxDepth (w ++ [stop]) = .error fault) :
    Stops maxDepth .start (w ++ [stop]) fault := by
  cases w with
  | nil =>
    rw [List.nil_append, read, if_pos hend] at h
    cases h
    exact ⟨[], stop, [], .start, rfl, .nil _,
      .unfit rfl (fun next move => move.ne_end hend) fun _ _ _ heq => by cases heq⟩
  | cons token w =>
    obtain ⟨htoken, hrest⟩ := List.forall_mem_cons.1 hne
    rw [List.cons_append, read_cons htoken] at h
    exact stops_of_readFrom htoken (fun next => stops_of_readAfter token hrest hend) h

/-! ## What was walked through can be completed -/

/-- After a term each open group is closed in turn. -/
theorem StateFrom.beginsSentence_haveTerm {sum? : Option Waiting} {term : Expr}
    (h : StateFrom (.haveTerm sum? term groups) w) : BeginsSentence w := by
  induction groups generalizing sum? term w with
  | nil => cases h with
    | haveTerm rest sum term => cases rest with
      | nil => exact ⟨[], _, by simpa using sum.expression term⟩
  | cons nearest groups ih =>
    have move : Moves (.haveTerm sum? term (nearest :: groups)) ⟨.rightParen, nearest.paren⟩ _ :=
      .closes nearest.paren
    exact (ih (move.stateFrom h)).of_append

/-- **What a state stands for begins a sentence.** -/
theorem StateFrom.beginsSentence (h : StateFrom state w) : BeginsSentence w := by
  cases state with
  | haveTerm => exact h.beginsSentence_haveTerm
  | needOperand pending groups =>
    have move : Moves (.needOperand pending groups) ⟨.number (.zero false), .point .origin⟩ _ :=
      .number (.point .origin) (.zero false)
    exact (move.stateFrom h).beginsSentence_haveTerm.of_append

theorem Walks.beginsSentence (walk : Walks maxDepth .start w state) : BeginsSentence w :=
  (walk.stateFrom .start).beginsSentence

/-! ## What is refused cannot be completed -/

/-- A walk leads to one state only, whatever depth is allowed. -/
theorem Walks.unique (h : Walks maxDepth state w state') (h' : Walks maxDepth' state w mid) :
    state' = mid := by
  induction h with
  | nil => cases h' with
    | nil => rfl
  | cons _ move _ ih => cases h' with
    | cons _ move' walk' =>
      cases move.unique move'
      exact ih walk'

/-- A sentence is walked through, with enough depth allowed. -/
theorem IsSentence.exists_walks (h : IsSentence w) :
    ∃ maxDepth sum? term, Walks maxDepth .start w (.haveTerm sum? term []) := by
  obtain ⟨e, h⟩ := h
  have room : RoomFor w.length [] w := by
    intro q hq
    have hlength := hq.length_le
    have hnesting := nesting_le_length q
    rw [List.length_nil]
    omega
  obtain ⟨sum?, term, -, walk⟩ := h.walks room
  exact ⟨w.length, sum?, term, walk⟩

/-- What is refused for the grammar is refused at every depth. -/
theorem Refuses.not_walks (h : Refuses maxDepth mid t fault)
    (hkind : fault.kind = .malformedExpression) :
    ¬ Walks maxDepth' mid (t :: v) state' := by
  rintro (_ | ⟨passes, move, -⟩)
  cases h with
  | unfit _ stuck => exact stuck _ move
  | empty closes => simp [State.opening?, opening?, justOpened?, closes] at passes
  | deep => cases hkind

/-- **No text goes on** with a token that is refused for the grammar. -/
theorem Refuses.not_beginsText (h : Refuses maxDepth mid t fault)
    (hkind : fault.kind = .malformedExpression) (walk : Walks maxDepth .start u mid) :
    ¬ BeginsText (u ++ [t]) := by
  rintro ⟨w, stop, hsentence, hend, hprefix⟩
  obtain ⟨maxDepth', sum?, term, walk'⟩ := hsentence.exists_walks
  rcases List.prefix_concat_iff.1 hprefix with heq | ⟨v, rfl⟩
  · -- the whole sentence was walked through, and the text ends at the token
    obtain ⟨rfl, rfl⟩ := List.append_singleton_inj.1 heq
    obtain rfl := walk.unique walk'
    cases h with
    | unfit _ _ unfinished => exact unfinished hend _ _ rfl
  · rw [List.append_assoc] at walk'
    obtain ⟨mid', walk', hrest⟩ := walk'.split
    obtain rfl := walk.unique walk'
    exact h.not_walks hkind hrest

/-! ## The tokens it is about -/

/-- Nothing waits just after a `(`, which is the last token read. -/
theorem StateFrom.exists_concat {nearest : Open}
    (h : StateFrom (.needOperand .none (nearest :: groups)) w) :
    ∃ u, w = u ++ [⟨.leftParen, nearest.paren⟩] := by
  cases h with
  | needOperand rest wait => cases rest with
    | @cons _ _ u v s _ _ => cases wait with
      | mk sum product signs =>
        cases sum
        cases product
        cases signs
        exact ⟨u ++ v, by simp⟩

/-- What is refused for the grammar is where the fault shows, or it is the
`)` of a group with nothing in it. -/
theorem Refuses.span_eq (h : Refuses maxDepth mid t fault)
    (hkind : fault.kind = .malformedExpression) (hstate : StateFrom mid u) :
    fault.span = t.span ∨ t.kind = .rightParen ∧
      ∃ v p, u = v ++ [p] ∧ p.kind = .leftParen ∧ fault.span = p.span.merge t.span := by
  cases h with
  | unfit => exact .inl rfl
  | empty closes =>
    obtain ⟨v, hv⟩ := hstate.exists_concat
    exact .inr ⟨closes, v, _, hv, rfl, rfl⟩
  | deep => cases hkind

/-- What is refused for the nesting comes after the first `(` that stands
too deep. -/
theorem Refuses.exists_deep (h : Refuses maxDepth mid t fault)
    (hkind : fault.kind = .nestingTooDeep) (walk : Walks maxDepth .start w mid) :
    ∃ u p, w = u ++ [p] ∧ p.kind = .leftParen ∧ fault = ⟨.nestedTooDeep maxDepth, p.span⟩ ∧
      nesting w = maxDepth + 1 ∧ (∀ q, q <+: u → nesting q ≤ maxDepth) ∧
      t.kind ≠ .rightParen := by
  cases h with
  | unfit hmalformed =>
    rw [Fault.kind, hmalformed] at hkind
    cases hkind
  | empty => cases hkind
  | @deep nearest groups _ hclose hdepth =>
    have hlength := walk.groups_length
    obtain ⟨u, rfl⟩ := (walk.stateFrom .start).exists_concat
    have hsettled : Settled maxDepth .start := fun _ => Nat.zero_le _
    -- before each of its tokens the walk kept within the depth
    have hwithin : ∀ q, q <+: u → nesting q ≤ maxDepth := by
      intro q hq
      have hne : q ≠ u ++ [⟨.leftParen, nearest.paren⟩] := by
        rintro rfl
        exact absurd hq.length_le (by simp)
      simpa [State.start, State.groups] using
        (walk.nesting_le hsettled).2 q (hq.trans (List.prefix_append _ _)) hne
    have hu := hwithin u List.prefix_rfl
    simp only [State.start, State.groups, List.length_nil, nesting_append, nesting_cons,
      nesting_nil, TokenKind.turn_leftParen] at hlength
    refine ⟨u, _, rfl, rfl, rfl, ?_, hwithin, hclose⟩
    rw [nesting_append, nesting_cons, nesting_nil, TokenKind.turn_leftParen]
    omega

/-! ## Which token a span ends at -/

theorem InOrder.before_of_mem (h : InOrder (u ++ t :: v)) {t' : Token} (ht' : t' ∈ v) :
    t.span.last.Before t'.span.last := by
  have hright := h.sublist (List.sublist_append_right u _)
  have hbefore := (List.pairwise_cons.1 hright.before).1 t' ht'
  exact hbefore.trans_upTo (hright.upTo t' (List.mem_cons_of_mem _ ht'))

/-- No two tokens that come in order end at the same place. -/
theorem InOrder.eq_of_last {u' v' : List Token} {t' : Token} (h : InOrder (u ++ t :: v))
    (heq : u ++ t :: v = u' ++ t' :: v') (hlast : t.span.last = t'.span.last) : u = u' := by
  have hirrefl : ∀ p : Position, ¬ p.Before p := by
    intro p
    rw [Position.Before]
    omega
  rcases List.append_eq_append_iff.1 heq with ⟨x, rfl, hx⟩ | ⟨x, rfl, hx⟩
  · cases x with
    | nil => exact (List.append_nil _).symm
    | cons a x =>
      obtain ⟨rfl, rfl⟩ := List.cons.inj hx
      have hmem : t' ∈ x ++ t' :: v' := by simp
      exact absurd (hlast ▸ h.before_of_mem hmem) (hirrefl _)
  · cases x with
    | nil => exact List.append_nil _
    | cons a x =>
      obtain ⟨rfl, rfl⟩ := List.cons.inj hx
      have hmem : t ∈ x ++ t :: v := by simp
      rw [heq] at h
      exact absurd (hlast ▸ h.before_of_mem hmem) (hirrefl _)

/-- Spans that are merged end where the later one does. -/
theorem InOrder.last_merge {p : Token} (h : InOrder (u ++ p :: t :: v)) :
    (p.span.merge t.span).last = t.span.last := by
  have hmem : t ∈ t :: v := List.mem_cons_self
  rw [Span.merge, Position.later, if_pos (h.before_of_mem hmem).upTo]

/-- Among tokens that come in order only the one after `u` ends where a span
ends. -/
def EndsAfter (tokens u : List Token) (s : Span) : Prop :=
  InOrder tokens → ∀ u' t' v', tokens = u' ++ t' :: v' → (t'.span.last = s.last ↔ u' = u)

theorem endsAfter_of_last {s : Span} (h : w = u ++ t :: v)
    (hlast : InOrder w → s.last = t.span.last) : EndsAfter w u s := by
  intro horder u' t' v' heq
  rw [hlast horder]
  constructor
  · intro htoken
    rw [h] at horder
    exact (horder.eq_of_last (h.symm.trans heq) htoken.symm).symm
  · rintro rfl
    have htail := List.append_cancel_left (heq.symm.trans h)
    rw [(List.cons.inj htail).1]

/-! ## The first token that cannot be right -/

/-- A fault shows that the token `t` after the tokens `u` cannot be right. -/
structure MalformedAt (tokens u : List Token) (t : Token) (fault : Fault) : Prop where
  cut : ∃ v, tokens = u ++ t :: v
  /-- The fault is at the token, or at a pair of parentheses that it closes. -/
  span : fault.span = t.span ∨ t.kind = .rightParen ∧
    ∃ v p, u = v ++ [p] ∧ p.kind = .leftParen ∧ fault.span = p.span.merge t.span
  ends : EndsAfter tokens u fault.span
  before : BeginsSentence u
  upTo : ¬ BeginsText (u ++ [t])

/-- A fault shows that the `(` after the tokens `u` is the first that stands
deeper than `depth`. -/
structure TooDeepAt (depth : Nat) (tokens u : List Token) (p : Token) (fault : Fault) : Prop where
  /-- What comes after the `(` does not close it. -/
  cut : ∃ t v, tokens = u ++ p :: t :: v ∧ t.kind ≠ .rightParen
  paren : p.kind = .leftParen
  eq : fault = ⟨.nestedTooDeep depth, p.span⟩
  ends : EndsAfter tokens u p.span
  upTo : BeginsSentence (u ++ [p])
  /-- Just after the `(` one group more is open than allowed. -/
  opened : nesting (u ++ [p]) = depth + 1
  /-- No earlier token leaves more groups open than allowed. -/
  before : ∀ q, q <+: u → nesting q ≤ depth

theorem Stops.exists_malformedAt (h : Stops maxDepth .start w fault)
    (hkind : fault.kind = .malformedExpression) : ∃ u t, MalformedAt w u t fault := by
  obtain ⟨u, t, v, mid, hw, walk, refused⟩ := h
  have hspan := refused.span_eq hkind (walk.stateFrom .start)
  have hlast : InOrder w → fault.span.last = t.span.last := by
    intro horder
    rcases hspan with hspan | ⟨-, x, p, rfl, -, hspan⟩
    · rw [hspan]
    · rw [hw, List.append_assoc, List.singleton_append] at horder
      rw [hspan, horder.last_merge]
  exact ⟨u, t, ⟨v, hw⟩, hspan, endsAfter_of_last hw hlast, walk.beginsSentence,
    refused.not_beginsText hkind walk⟩

theorem Stops.exists_tooDeepAt (h : Stops maxDepth .start w fault)
    (hkind : fault.kind = .nestingTooDeep) : ∃ u p, TooDeepAt maxDepth w u p fault := by
  obtain ⟨_, t, v, mid, hw, walk, refused⟩ := h
  obtain ⟨u, p, rfl, hparen, hfault, hnesting, hbefore, hclose⟩ := refused.exists_deep hkind walk
  have hcut : w = u ++ p :: t :: v := by rw [hw, List.append_assoc, List.singleton_append]
  exact ⟨u, p, ⟨t, v, hcut, hclose⟩, hparen, hfault, endsAfter_of_last hcut fun _ => rfl,
    walk.beginsSentence, hnesting, hbefore⟩

/-- What the checks on the whole list let through fails when it is read. -/
theorem read_eq_error_of_ofTokens {limits : Limits} (h : ofTokens limits w = .error fault)
    (hkind : fault.kind = .malformedExpression ∨ fault.kind = .nestingTooDeep) :
    read limits.clamped.maxDepth w = .error fault := by
  rcases cases_of_ofTokens_error h with hlong | hbalance | hread
  · rw [tooLong?_kind hlong] at hkind
    rcases hkind with hkind | hkind <;> cases hkind
  · rw [unbalanced?_kind hbalance] at hkind
    rcases hkind with hkind | hkind <;> cases hkind
  · exact hread

/-- Why there is no tree is the only thing that a report on a text says. -/
theorem report_of_ofTokens {limits : Limits} {text : String}
    (hclean : (Scan.ofText text.toList).faults = [])
    (h : ofTokens limits (Scan.ofText text.toList).tokens = .error fault) :
    (report text limits).errors = ⟨[fault.diagnose (.ofText text)], 1⟩ := by
  have hcalculate : calculate limits text.toList = .error (.one fault) := by
    rw [calculate_eq_valued hclean, valued, h]
    rfl
  rw [report_of_error hcalculate]
  rfl

/-- **A malformed expression shows at the first token that cannot be right.**
Of tokens that end in the only end of the text, let reading find the fault.
When it is one of the grammar, some sentence of the grammar begins with
the tokens before the one at the end of its span, but none that the text
ends after begins with this token too. When it is one of the nesting it
shows at the first `(` after which one more group is open than allowed;
some sentence begins with the tokens up to it, and the next token does not
close it. The tokens of a text that checked counters get through come in
order, so that a span ends at one of them only; and the fault is the only one
that is reported of a text. -/
theorem ofTokens_earliest {limits : Limits} (hne : ∀ t ∈ w, t.kind ≠ .endOfInput)
    (hend : stop.kind = .endOfInput) (h : ofTokens limits (w ++ [stop]) = .error fault) :
    (fault.kind = .malformedExpression → ∃ u t, MalformedAt (w ++ [stop]) u t fault) ∧
    (fault.kind = .nestingTooDeep →
      ∃ u p, TooDeepAt (min limits.maxDepth 256) (w ++ [stop]) u p fault) ∧
    ∀ text : String, (Scan.ofText text.toList).tokens = w ++ [stop] →
      ((Scan.ofText? text.toList).isSome = true → InOrder (w ++ [stop])) ∧
      ((Scan.ofText text.toList).faults = [] →
        (report text limits).errors = ⟨[fault.diagnose (.ofText text)], 1⟩) := by
  have hstops : fault.kind = .malformedExpression ∨ fault.kind = .nestingTooDeep →
      Stops (min limits.maxDepth 256) .start (w ++ [stop]) fault :=
    fun hkind => stops_of_read hne hend (read_eq_error_of_ofTokens h hkind)
  refine ⟨fun hkind => ?_, fun hkind => ?_, fun text htokens => ⟨fun hscan => ?_, fun hclean => ?_⟩⟩
  · exact (hstops (.inl hkind)).exists_malformedAt hkind
  · exact (hstops (.inr hkind)).exists_tooDeepAt hkind
  · rw [← htokens]
    exact Scan.inOrder_ofText hscan
  · exact report_of_ofTokens hclean (by rw [htokens, h])

/-- `(1+())` holds a group with nothing in it, unless no groups are allowed. -/
theorem ofTokens_earliest_empty :
    let token := fun kind col => Token.mk kind (.point ⟨1, col⟩)
    let w := [token .leftParen 1, token (.number (.ofInt 1)) 2, token .plus 3,
      token .leftParen 4, token .rightParen 5, token .rightParen 6]
    let stop := token .endOfInput 7
    let fault : Fault := ⟨.emptyParentheses, ⟨⟨1, 4⟩, ⟨1, 5⟩⟩⟩
    let fault' : Fault := ⟨.nestedTooDeep 0, .point ⟨1, 1⟩⟩
    (∀ t ∈ w, t.kind ≠ .endOfInput) ∧ stop.kind = .endOfInput ∧
      ofTokens .standard (w ++ [stop]) = .error fault ∧ fault.kind = .malformedExpression ∧
      (∃ u t, MalformedAt (w ++ [stop]) u t fault) ∧
      ofTokens ⟨0, 6, none⟩ (w ++ [stop]) = .error fault' ∧ fault'.kind = .nestingTooDeep ∧
      (∃ u p, TooDeepAt 0 (w ++ [stop]) u p fault') ∧
      (Scan.ofText "(1+())".toList).tokens = w ++ [stop] ∧
      (report "(1+())" .standard).errors = ⟨[fault.diagnose (.ofText "(1+())")], 1⟩ := by
  intro token w stop fault fault'
  have hne : ∀ t ∈ w, t.kind ≠ .endOfInput := by decide
  have hread : ofTokens .standard (w ++ [stop]) = .error fault := by decide +kernel
  have hread' : ofTokens ⟨0, 6, none⟩ (w ++ [stop]) = .error fault' := by decide +kernel
  have htokens : (Scan.ofText "(1+())".toList).tokens = w ++ [stop] := by decide +kernel
  have hclean : (Scan.ofText "(1+())".toList).faults = [] := by decide +kernel
  obtain ⟨hmalformed, -, htext⟩ := ofTokens_earliest hne rfl hread
  obtain ⟨-, hdeep, -⟩ := ofTokens_earliest hne rfl hread'
  exact ⟨hne, rfl, hread, rfl, hmalformed rfl, hread', rfl, hdeep rfl, htokens,
    (htext _ htokens).2 hclean⟩

end Abacus.Expr
