import Abacus.Proofs.EarliestFault

/-!
# Balance

What the check on the parentheses blames. A `(` and a `)` are partners when
what stands between them is balanced. Where some prefix closes more than it
opens, the check blames the `)` at the end of the shortest one; else it
blames the last `(` without a partner, and everything after that one is
balanced. What the check lets through gives reading no cause to speak of
parentheses that are left over at the end or missing there.
-/

namespace Abacus

/-- Whether a cause speaks of a `)` that is left over after a complete
expression, or of one that is missing where the text ends. -/
def Cause.deniesBalance : Cause → Bool
  | trailing .rightParen | missingClose .endOfInput => true
  | _ => false

namespace Expr

variable {maxDepth : Nat} {previous? : Option TokenKind} {state : State}
  {tokens u v w x u' w' x' : List Token} {token p c t : Token} {fault : Fault} {limits : Limits}

/-! ## Balanced lists -/

theorem Balanced.nil : Balanced [] :=
  ⟨fun w hw => by rw [List.prefix_nil.1 hw]; exact Int.le_refl _, rfl⟩

/-- A list whose prefixes close no more than they open is balanced when all
of it does not open more either. -/
theorem Balanced.of_le (h : ∀ w, w <+: tokens → 0 ≤ nesting w) (hle : nesting tokens ≤ 0) :
    Balanced tokens :=
  ⟨h, Int.le_antisymm hle (h tokens List.prefix_rfl)⟩

/-! ## Partners -/

/-- The `(` before the tokens `w` and the `)` after them are partners: what
stands between them is balanced. -/
structure Pair (p : Token) (w : List Token) (c : Token) : Prop where
  opens : p.kind = .leftParen
  inside : Balanced w
  closes : c.kind = .rightParen

/-- In a list, the `(` after the tokens `u` has its partner behind the tokens
`w` that follow it. -/
def Partner (tokens u w : List Token) : Prop :=
  ∃ p c v, tokens = u ++ p :: (w ++ c :: v) ∧ Pair p w c

/-- The tokens after a `(` begin with what its partner closes, and the
partner. -/
def Closed (v : List Token) : Prop :=
  ∃ w c x, v = w ++ c :: x ∧ Balanced w ∧ c.kind = .rightParen

/-- Every `(` has a partner. -/
def AllClosed (tokens : List Token) : Prop :=
  ∀ u p v, tokens = u ++ p :: v → p.kind = .leftParen → Closed v

theorem exists_partner_iff (hp : p.kind = .leftParen) :
    (∃ w, Partner (u ++ p :: v) u w) ↔ Closed v := by
  constructor
  · rintro ⟨w, p', c, x, heq, pair⟩
    obtain ⟨rfl, rfl⟩ := List.cons.inj (List.append_cancel_left heq)
    exact ⟨w, c, x, rfl, pair.inside, pair.closes⟩
  · rintro ⟨w, c, x, rfl, hinside, hcloses⟩
    exact ⟨w, p, c, x, rfl, hp, hinside, hcloses⟩

/-- A balanced list does not go on with a `)` in another one. -/
theorem Balanced.not_prefix (h : Balanced w) (hc : c.kind = .rightParen) (hw' : Balanced w') :
    ¬ w ++ [c] <+: w' := by
  intro hprefix
  have hnonneg := hw'.1 _ hprefix
  rw [nesting_append, nesting_cons, h.2, hc] at hnonneg
  simp at hnonneg

/-- **A `(` has one partner** at most. -/
theorem Partner.unique (h : Partner tokens u w) (h' : Partner tokens u w') : w = w' := by
  obtain ⟨p, c, v, rfl, pair⟩ := h
  obtain ⟨p', c', v', heq, pair'⟩ := h'
  obtain ⟨rfl, hrest⟩ := List.cons.inj (List.append_cancel_left heq)
  rcases List.append_eq_append_iff.1 hrest with ⟨y, rfl, hy⟩ | ⟨y, rfl, hy⟩
  · cases y with
    | nil => exact (List.append_nil w).symm
    | cons a y =>
      obtain ⟨rfl, -⟩ := List.cons.inj hy
      exact absurd (by simp) (pair.inside.not_prefix pair.closes pair'.inside)
  · cases y with
    | nil => exact List.append_nil w'
    | cons a y =>
      obtain ⟨rfl, -⟩ := List.cons.inj hy
      exact absurd (by simp) (pair'.inside.not_prefix pair'.closes pair.inside)

/-! ## Where a list closes too much -/

/-- The `)` after the tokens `u` closes more than was opened, and none before
it does. -/
structure FirstStray (tokens u : List Token) (t : Token) : Prop where
  cut : ∃ v, tokens = u ++ t :: v
  closes : t.kind = .rightParen
  tooMany : nesting (u ++ [t]) < 0
  before : ∀ q, q <+: u → 0 ≤ nesting q

/-- Only a `)` lowers the count of open groups, and by one. -/
theorem rightParen_of_nesting_neg (hu : 0 ≤ nesting u) (hneg : nesting (u ++ [t]) < 0) :
    t.kind = .rightParen ∧ nesting u = 0 := by
  rw [nesting_append, nesting_cons, nesting_nil] at hneg
  cases hkind : t.kind <;> simp [hkind, TokenKind.turn] at hneg ⊢ <;> omega

theorem FirstStray.append (h : FirstStray u u' t) (v : List Token) : FirstStray (u ++ v) u' t := by
  obtain ⟨x, rfl⟩ := h.cut
  exact ⟨⟨x ++ v, by simp⟩, h.closes, h.tooMany, h.before⟩

/-- **The shortest prefix that closes too much** ends in a `)`. -/
theorem exists_firstStray (h : ∃ w, w <+: tokens ∧ nesting w < 0) :
    ∃ u t, FirstStray tokens u t := by
  induction tokens using List.reverseRecOn with
  | nil =>
    obtain ⟨w, hw, hneg⟩ := h
    rw [List.prefix_nil.1 hw] at hneg
    simp at hneg
  | append_singleton u t ih =>
    by_cases hu : ∃ q, q <+: u ∧ nesting q < 0
    · obtain ⟨u', t', hstray⟩ := ih hu
      exact ⟨u', t', hstray.append [t]⟩
    · have hbefore : ∀ q, q <+: u → 0 ≤ nesting q :=
        fun q hq => Int.not_lt.1 fun hneg => hu ⟨q, hq, hneg⟩
      obtain ⟨w, hw, hneg⟩ := h
      rcases List.prefix_concat_iff.1 hw with rfl | hw
      · have hclose := rightParen_of_nesting_neg (hbefore u List.prefix_rfl) hneg
        exact ⟨u, t, ⟨[], rfl⟩, hclose.1, hneg, hbefore⟩
      · exact absurd (hbefore w hw) (Int.not_le.2 hneg)

/-- What stands before the first stray `)` is balanced. -/
theorem FirstStray.balanced (h : FirstStray tokens u t) : Balanced u := by
  have hzero := (rightParen_of_nesting_neg (h.before u List.prefix_rfl) h.tooMany).2
  exact .of_le h.before (Int.le_of_eq hzero)

/-! ## Balance by partners -/

/-- After a `(` its partner comes exactly when more is closed than opened. -/
theorem closed_iff : Closed v ↔ ∃ w, w <+: v ∧ nesting w < 0 := by
  constructor
  · rintro ⟨w, c, x, rfl, hinside, hcloses⟩
    refine ⟨w ++ [c], by simp, ?_⟩
    rw [nesting_append, nesting_cons, nesting_nil, hinside.2, hcloses]
    decide
  · intro h
    obtain ⟨u, t, hstray⟩ := exists_firstStray h
    obtain ⟨x, rfl⟩ := hstray.cut
    exact ⟨u, t, x, rfl, hstray.balanced, hstray.closes⟩

theorem AllClosed.tail (h : AllClosed (u ++ v)) : AllClosed v := by
  rintro u' p x rfl hp
  exact h (u ++ u') p x (by simp) hp

/-- Where every `(` has a partner no more is opened than closed. -/
theorem AllClosed.nesting_le (h : AllClosed tokens) : nesting tokens ≤ 0 := by
  induction hn : tokens.length using Nat.strongRecOn generalizing tokens with
  | ind n ih => cases tokens with
    | nil => exact Int.le_refl _
    | cons t rest =>
      rw [List.length_cons] at hn
      by_cases ht : t.kind = .leftParen
      · -- the partner takes back what the `(` adds, and what stands between adds nothing
        obtain ⟨w, c, x, rfl, hinside, hcloses⟩ := h [] t rest rfl ht
        have hx : AllClosed x := AllClosed.tail (u := t :: (w ++ [c])) (by simpa using h)
        rw [List.length_append, List.length_cons] at hn
        have hrest := ih x.length (by omega) hx rfl
        rw [nesting_cons, nesting_append, nesting_cons, ht, hinside.2, hcloses]
        simp only [TokenKind.turn_leftParen, TokenKind.turn_rightParen]
        omega
      · have hrest := ih rest.length (by omega) (AllClosed.tail (u := [t]) h) rfl
        have hturn : t.kind.turn ≤ 0 := by
          cases hkind : t.kind <;> simp [hkind, TokenKind.turn] at ht ⊢
        rw [nesting_cons]
        omega

/-- **A list is balanced** exactly when no prefix closes more than it opens
and every `(` has its partner. -/
theorem balanced_iff :
    Balanced tokens ↔ (∀ w, w <+: tokens → 0 ≤ nesting w) ∧ AllClosed tokens := by
  constructor
  · intro h
    refine ⟨h.1, ?_⟩
    rintro u p v rfl hp
    have hu := h.1 u (List.prefix_append u _)
    have hall := h.2
    rw [nesting_append, nesting_cons, hp, TokenKind.turn_leftParen] at hall
    exact closed_iff.2 ⟨v, List.prefix_rfl, by omega⟩
  · rintro ⟨hnonneg, hclosed⟩
    exact .of_le hnonneg hclosed.nesting_le

/-! ## The last `(` without a partner -/

/-- The token after `u` is the last `(` without a partner. -/
structure LastOpen (tokens u : List Token) (p : Token) : Prop where
  cut : ∃ v, tokens = u ++ p :: v
  opens : p.kind = .leftParen
  unmatched : ∀ w, ¬ Partner tokens u w
  later : ∀ u' p' v', tokens = u' ++ p' :: v' → u.length < u'.length → p'.kind = .leftParen →
    ∃! w, Partner tokens u' w

theorem exists_closed_after (h : ¬ AllClosed tokens) :
    ∃ u p v, tokens = u ++ p :: v ∧ p.kind = .leftParen ∧ ¬ Closed v ∧ AllClosed v := by
  induction tokens with
  | nil =>
    refine absurd ?_ h
    rintro u p v heq
    cases u <;> cases heq
  | cons t rest ih =>
    by_cases hrest : AllClosed rest
    · refine ⟨[], t, rest, rfl, ?_⟩
      by_contra hclosed
      refine h ?_
      rintro u p v heq hp
      cases u with
      | nil =>
        obtain ⟨rfl, rfl⟩ := List.cons.inj heq
        by_contra hnone
        exact hclosed ⟨hp, hnone, hrest⟩
      | cons a u =>
        obtain ⟨rfl, rfl⟩ := List.cons.inj heq
        exact hrest u p v rfl hp
    · obtain ⟨u, p, v, rfl, hlast⟩ := ih hrest
      exact ⟨t :: u, p, v, rfl, hlast⟩

/-- **Where some `(` has no partner** there is a last one. -/
theorem exists_lastOpen (h : ¬ AllClosed tokens) : ∃ u p, LastOpen tokens u p := by
  obtain ⟨u, p, v, rfl, hp, hnone, hlater⟩ := exists_closed_after h
  refine ⟨u, p, ?_⟩
  refine ⟨⟨v, rfl⟩, hp, fun w hw => hnone ((exists_partner_iff hp).1 ⟨w, hw⟩), ?_⟩
  rintro u' p' v' heq hlength hp'
  -- a later `(` stands among the tokens after this one
  rcases List.append_eq_append_iff.1 heq with ⟨y, rfl, hy⟩ | ⟨y, rfl, -⟩
  · cases y with
    | nil => simp at hlength
    | cons a y =>
      obtain ⟨rfl, rfl⟩ := List.cons.inj hy
      obtain ⟨w, hw⟩ := (exists_partner_iff hp').2 (hlater y p' v' rfl hp')
      rw [heq]
      exact ⟨w, hw, fun w' hw' => hw'.unique hw⟩
  · rw [List.length_append] at hlength
    omega

/-! ## The check on a stack -/

/-- The check goes over tokens that close no more than was opened, and keeps
what lies below on the stack. -/
theorem exists_unbalanced?_append (top below : List Span) (rest : List Token)
    (h : ∀ w, w <+: u → 0 ≤ top.length + nesting w) :
    ∃ top' : List Span, (top'.length : Int) = top.length + nesting u ∧
      unbalanced? (top ++ below) (u ++ rest) = unbalanced? (top' ++ below) rest := by
  induction u generalizing top with
  | nil => exact ⟨top, by simp, rfl⟩
  | cons t u ih =>
    obtain ⟨kind, s⟩ := t
    obtain ⟨-, htail⟩ := forall_prefix_cons.1 h
    by_cases hturn : kind.turn = 0
    · obtain ⟨top', hlength, heq⟩ := ih top fun w hw => by simpa [hturn] using htail w hw
      refine ⟨top', by simpa [hturn] using hlength, ?_⟩
      rw [List.cons_append, unbalanced?_of_turn_eq_zero _ _ hturn, heq]
    · cases kind with
      | leftParen =>
        obtain ⟨top', hlength, heq⟩ := ih (s :: top) fun w hw => by
          have := htail w hw
          simp only [nesting_cons, TokenKind.turn_leftParen] at this
          simp only [List.length_cons]
          omega
        refine ⟨top', ?_, ?_⟩
        · simp only [List.length_cons] at hlength
          simp only [nesting_cons, TokenKind.turn_leftParen]
          omega
        · rw [List.cons_append, unbalanced?_leftParen]
          exact heq
      | rightParen =>
        cases top with
        | nil =>
          have := htail [] List.nil_prefix
          simp at this
        | cons s' top =>
          obtain ⟨top', hlength, heq⟩ := ih top fun w hw => by
            have := htail w hw
            simp only [nesting_cons, TokenKind.turn_rightParen, List.length_cons] at this
            omega
          refine ⟨top', ?_, ?_⟩
          · simp only [nesting_cons, TokenKind.turn_rightParen, List.length_cons]
            omega
          · rw [List.cons_append, List.cons_append, unbalanced?_rightParen]
            exact heq
      | _ => exact absurd rfl hturn

/-- The check goes over balanced tokens as if they were not there. -/
theorem Balanced.unbalanced?_append (h : Balanced u) (opened : List Span) (rest : List Token) :
    unbalanced? opened (u ++ rest) = unbalanced? opened rest := by
  obtain ⟨top, hlength, heq⟩ := exists_unbalanced?_append [] opened rest
    (fun w hw => by simpa using h.1 w hw)
  rw [h.2, List.length_nil] at hlength
  have htop : top = [] := List.eq_nil_of_length_eq_zero (by omega)
  rw [htop] at heq
  exact heq

/-- **The first stray `)`** is what the check blames. -/
theorem FirstStray.unbalanced?_eq (h : FirstStray tokens u t) :
    unbalanced? [] tokens = some ⟨.unmatchedClose, t.span⟩ := by
  obtain ⟨v, rfl⟩ := h.cut
  rw [h.balanced.unbalanced?_append]
  simp [unbalanced?, h.closes]

/-- **The last `(` without a partner** is what the check blames, where nothing
closes too much. -/
theorem LastOpen.unbalanced?_eq (h : LastOpen tokens u p)
    (hnonneg : ∀ w, w <+: tokens → 0 ≤ nesting w) :
    unbalanced? [] tokens = some ⟨.unclosedOpen, p.span⟩ := by
  obtain ⟨v, rfl⟩ := h.cut
  -- what comes after it is balanced, so the `(` stays on top of the stack
  have hbalanced : Balanced v := by
    refine balanced_iff.2 ⟨fun w hw => ?_, ?_⟩
    · by_contra hneg
      obtain ⟨w', hw'⟩ := (exists_partner_iff h.opens).2 (closed_iff.2 ⟨w, hw, Int.not_le.1 hneg⟩)
      exact h.unmatched w' hw'
    · rintro u' p' v' rfl hp'
      have heq : u ++ p :: (u' ++ p' :: v') = (u ++ p :: u') ++ p' :: v' := by simp
      have hpartner := (h.later _ p' v' heq (by simp) hp').exists
      rw [heq] at hpartner
      exact (exists_partner_iff hp').1 hpartner
  have hbefore : ∀ w, w <+: u → 0 ≤ (([] : List Span).length : Int) + nesting w :=
    fun w hw => by simpa using hnonneg w (hw.trans (List.prefix_append u _))
  obtain ⟨top, -, heq⟩ := exists_unbalanced?_append [] [] (p :: v) hbefore
  have hv := hbalanced.unbalanced?_append (p.span :: (top ++ [])) []
  rw [List.append_nil v] at hv
  refine heq.trans ?_
  rw [show p = ⟨.leftParen, p.span⟩ by rw [← h.opens], unbalanced?_leftParen, hv]
  rfl

/-! ## Reading what is balanced -/

theorem opening?_deniesBalance {pending : Pending} {groups : List Open}
    (h : opening? maxDepth pending groups token = some fault) :
    fault.cause.deniesBalance = false := by
  unfold opening? at h
  split at h
  · cases h
  · split at h
    · cases h
      rfl
    · split at h <;> cases h
      rfl

/-- A step that may close a group does not find a `)` left over. -/
theorem step_deniesBalance (hopen : 0 ≤ state.groups.length + token.kind.turn)
    (hne : token.kind ≠ .endOfInput)
    (h : step maxDepth previous? state token = .error fault) :
    fault.cause.deniesBalance = false := by
  obtain ⟨kind, s⟩ := token
  cases state with
  | needOperand pending groups =>
    simp only [step] at h
    cases hopening : opening? maxDepth pending groups ⟨kind, s⟩ with
    | some fault' =>
      rw [hopening] at h
      cases h
      exact opening?_deniesBalance hopening
    | none =>
      rw [hopening] at h
      cases kind <;> cases h <;> rfl
  | haveTerm sum? term groups =>
    cases groups with
    | nil => cases kind <;> cases h <;> first | rfl | simp [State.groups] at hopen
    | cons => cases kind <;> cases h <;> first | rfl | exact absurd rfl hne

theorem finish_deniesBalance (hclosed : state.groups = [])
    (h : finish maxDepth previous? state token = .error fault) :
    fault.cause.deniesBalance = false := by
  cases state with
  | needOperand pending groups =>
    simp only [finish] at h
    cases hopening : opening? maxDepth pending groups token with
    | some fault' =>
      rw [hopening] at h
      cases h
      exact opening?_deniesBalance hopening
    | none =>
      rw [hopening] at h
      cases h
      rfl
  | haveTerm sum? term groups =>
    obtain rfl : groups = [] := hclosed
    cases h

/-- From a state on, the tokens close the groups that are open, and are
balanced apart from that. -/
structure Settles (state : State) (w : List Token) : Prop where
  nonneg : ∀ q, q <+: w → 0 ≤ state.groups.length + nesting q
  closed : state.groups.length + nesting w = 0

theorem Moves.settles {next : State} (move : Moves state t next) (h : Settles state (t :: w)) :
    Settles next w := by
  have hlength := move.groups_length
  refine ⟨fun q hq => ?_, ?_⟩
  · have := h.nonneg (t :: q) (List.cons_prefix_cons.2 ⟨rfl, hq⟩)
    rw [nesting_cons] at this
    omega
  · have := h.closed
    rw [nesting_cons] at this
    omega

theorem readFrom_deniesBalance (hne : token.kind ≠ .endOfInput)
    (hsettles : Settles state (token :: w))
    (later : ∀ next, Settles next w → readAfter maxDepth token next tokens = .error fault →
      fault.cause.deniesBalance = false)
    (h : readFrom maxDepth token tokens (step maxDepth previous? state token) = .error fault) :
    fault.cause.deniesBalance = false := by
  cases hstep : step maxDepth previous? state token with
  | error fault' =>
    rw [hstep] at h
    cases h
    have hopen := hsettles.nonneg [token] (by simp)
    rw [nesting_cons, nesting_nil, Int.add_zero] at hopen
    exact step_deniesBalance hopen hne hstep
  | ok next =>
    rw [hstep] at h
    exact later next ((step_eq_ok.1 hstep).2.settles hsettles) h

theorem readAfter_deniesBalance (previous : Token) (hne : ∀ t ∈ w, t.kind ≠ .endOfInput)
    (hend : t.kind = .endOfInput) (hsettles : Settles state w)
    (h : readAfter maxDepth previous state (w ++ [t]) = .error fault) :
    fault.cause.deniesBalance = false := by
  induction w generalizing previous state with
  | nil =>
    rw [List.nil_append, readAfter, if_pos hend] at h
    have hclosed := hsettles.closed
    rw [nesting_nil] at hclosed
    exact finish_deniesBalance (List.eq_nil_of_length_eq_zero (by omega)) h
  | cons token w ih =>
    obtain ⟨htoken, hrest⟩ := List.forall_mem_cons.1 hne
    rw [List.cons_append, readAfter_cons _ _ htoken] at h
    exact readFrom_deniesBalance htoken hsettles (fun next => ih token hrest) h

/-- **Reading balanced tokens**, which end in the only end of the text, finds
no `)` left over and none missing at the end. -/
theorem read_deniesBalance (hne : ∀ t ∈ w, t.kind ≠ .endOfInput) (hend : t.kind = .endOfInput)
    (hbalanced : Balanced (w ++ [t])) (h : read maxDepth (w ++ [t]) = .error fault) :
    fault.cause.deniesBalance = false := by
  cases w with
  | nil =>
    rw [List.nil_append, read, if_pos hend] at h
    cases h
    rfl
  | cons token w =>
    have hsettles : Settles .start (token :: w) := by
      constructor
      · intro q hq
        simpa [State.start, State.groups] using
          hbalanced.1 q (hq.trans (List.prefix_append _ [t]))
      · have hzero := hbalanced.2
        rw [nesting_append, nesting_cons t, hend] at hzero
        simpa [State.start, State.groups, TokenKind.turn] using hzero
    obtain ⟨htoken, hrest⟩ := List.forall_mem_cons.1 hne
    rw [List.cons_append, read_cons htoken] at h
    exact readFrom_deniesBalance htoken hsettles
      (fun next => readAfter_deniesBalance token hrest hend) h

theorem deniesBalance_of_ofTokens (hne : ∀ t ∈ w, t.kind ≠ .endOfInput)
    (hend : t.kind = .endOfInput) (hbalanced : Balanced (w ++ [t]))
    (h : ofTokens limits (w ++ [t]) = .error fault) : fault.cause.deniesBalance = false := by
  rcases cases_of_ofTokens_error h with hlong | hbalance | hread
  · have hkind := tooLong?_kind hlong
    obtain ⟨cause, s⟩ := fault
    cases cause <;> first | rfl | cases hkind
  · rw [(unbalanced?_nil_eq_none _).2 hbalanced] at hbalance
    cases hbalance
  · exact read_deniesBalance hne hend hbalanced hread

/-! ## Lists within the limit -/

/-- What the check on the parentheses finds in a list that is short enough is
why it has no tree. -/
theorem ofTokens_of_unbalanced? (hshort : tokens.length - 1 ≤ min limits.maxTokens 1000000)
    (h : unbalanced? [] tokens = some fault) : ofTokens limits tokens = .error fault := by
  have hlength : tooLong? limits.clamped.maxTokens tokens = none := (tooLong?_eq_none _ _).2 hshort
  simp only [ofTokens, hlength, h]

/-- Only parentheses that are not balanced are reported as such. -/
theorem not_balanced_of_kind (h : ofTokens limits tokens = .error fault)
    (hkind : fault.kind = .unbalancedParentheses) : ¬ Balanced tokens := by
  intro hbalanced
  rcases cases_of_ofTokens_error h with hlong | hbalance | hread
  · rw [tooLong?_kind hlong] at hkind
    cases hkind
  · rw [(unbalanced?_nil_eq_none tokens).2 hbalanced] at hbalance
    cases hbalance
  · rcases read_error_kind hread with hread | hread <;> rw [hread] at hkind <;> cases hkind

/-- **The check on the parentheses is exact**, and blames the right one. Of a
list within the limit on its length, parentheses are reported exactly when
they are not balanced. Where some prefix closes more than it opens, it is
the `)` at the end of the shortest such prefix that is reported; otherwise
it is the last `(` without a partner. Nothing else is reported then,
whatever else is wrong. And of balanced tokens that end in the only end of
the text, no `)` is reported as left over or as missing at the end. -/
theorem ofTokens_unbalanced_iff (hshort : tokens.length - 1 ≤ min limits.maxTokens 1000000) :
    ((∃ fault, ofTokens limits tokens = .error fault ∧ fault.kind = .unbalancedParentheses) ↔
      ¬ Balanced tokens) ∧
    ((∃ w, w <+: tokens ∧ nesting w < 0) →
      ∃ u t, FirstStray tokens u t ∧
        ofTokens limits tokens = .error ⟨.unmatchedClose, t.span⟩) ∧
    (¬ Balanced tokens → (∀ w, w <+: tokens → 0 ≤ nesting w) →
      ∃ u p, LastOpen tokens u p ∧ ofTokens limits tokens = .error ⟨.unclosedOpen, p.span⟩) ∧
    (∀ w t fault, tokens = w ++ [t] → (∀ t ∈ w, t.kind ≠ .endOfInput) →
      t.kind = .endOfInput → Balanced tokens → ofTokens limits tokens = .error fault →
      fault.cause ≠ .trailing .rightParen ∧ fault.cause ≠ .missingClose .endOfInput) ∧
    ∀ text : String, (Scan.ofText text.toList).tokens = tokens →
      (Scan.ofText text.toList).faults = [] → ∀ fault, ofTokens limits tokens = .error fault →
        (report text limits).errors = ⟨[fault.diagnose (.ofText text)], 1⟩ := by
  refine ⟨⟨?_, fun h => ?_⟩, fun h => ?_, fun h hnonneg => ?_, ?_, ?_⟩
  · rintro ⟨fault, herror, hkind⟩
    exact not_balanced_of_kind herror hkind
  · rw [← unbalanced?_nil_eq_none] at h
    obtain ⟨fault, hfault⟩ := Option.ne_none_iff_exists'.1 h
    exact ⟨fault, ofTokens_of_unbalanced? hshort hfault, unbalanced?_kind hfault⟩
  · obtain ⟨u, t, hstray⟩ := exists_firstStray h
    exact ⟨u, t, hstray, ofTokens_of_unbalanced? hshort hstray.unbalanced?_eq⟩
  · obtain ⟨u, p, hlast⟩ := exists_lastOpen fun hclosed => h (balanced_iff.2 ⟨hnonneg, hclosed⟩)
    exact ⟨u, p, hlast, ofTokens_of_unbalanced? hshort (hlast.unbalanced?_eq hnonneg)⟩
  · rintro w t fault rfl hne hend hbalanced herror
    have hdenies := deniesBalance_of_ofTokens hne hend hbalanced herror
    constructor <;> intro hcause <;> rw [hcause] at hdenies <;> cases hdenies
  · rintro text rfl hclean fault herror
    exact report_of_ofTokens hclean herror

/-- The first `(` of `((1)()` is the last without a partner, though a `(` and a
`)` come after it, and the group that is empty is not looked at; in `1)(` the
`)` comes before the `(`. -/
theorem ofTokens_unbalanced_nested :
    let token := fun kind col => Token.mk kind (.point ⟨1, col⟩)
    let one := TokenKind.number (.ofInt 1)
    let tokens := [token .leftParen 1, token .leftParen 2, token one 3, token .rightParen 4,
      token .leftParen 5, token .rightParen 6, token .endOfInput 7]
    let tokens' := [token one 1, token .rightParen 2, token .leftParen 3, token .endOfInput 4]
    tokens.length - 1 ≤ min Limits.standard.maxTokens 1000000 ∧ ¬ Balanced tokens ∧
      (∃ u p, LastOpen tokens u p ∧ p.span = .point ⟨1, 1⟩ ∧
        ofTokens .standard tokens = .error ⟨.unclosedOpen, p.span⟩) ∧
      tokens'.length - 1 ≤ min Limits.standard.maxTokens 1000000 ∧
      ∃ u t, FirstStray tokens' u t ∧ t.span = .point ⟨1, 2⟩ ∧
        ofTokens .standard tokens' = .error ⟨.unmatchedClose, t.span⟩ := by
  intro token one tokens tokens'
  have hshort : tokens.length - 1 ≤ min Limits.standard.maxTokens 1000000 := by decide
  have hshort' : tokens'.length - 1 ≤ min Limits.standard.maxTokens 1000000 := by decide
  have hread : ofTokens .standard tokens = .error ⟨.unclosedOpen, .point ⟨1, 1⟩⟩ := by
    decide +kernel
  have hread' : ofTokens .standard tokens' = .error ⟨.unmatchedClose, .point ⟨1, 2⟩⟩ := by
    decide +kernel
  have hnonneg : ∀ w, w <+: tokens → 0 ≤ nesting w := by
    simp only [tokens, forall_prefix_cons, List.prefix_nil, forall_eq]
    decide
  obtain ⟨hiff, -, hopen, -⟩ := ofTokens_unbalanced_iff hshort
  obtain ⟨-, hstray, -⟩ := ofTokens_unbalanced_iff hshort'
  have hunbalanced : ¬ Balanced tokens := hiff.1 ⟨_, hread, rfl⟩
  obtain ⟨u, p, hlast, herror⟩ := hopen hunbalanced hnonneg
  obtain ⟨u', t, hfirst, herror'⟩ := hstray ⟨tokens'.take 2, List.take_prefix _ _, by decide⟩
  have hspan := Except.error.inj (herror.symm.trans hread)
  have hspan' := Except.error.inj (herror'.symm.trans hread')
  exact ⟨hshort, hunbalanced, ⟨u, p, hlast, congrArg Fault.span hspan, herror⟩, hshort', u', t,
    hfirst, congrArg Fault.span hspan', herror'⟩

end Expr

end Abacus
