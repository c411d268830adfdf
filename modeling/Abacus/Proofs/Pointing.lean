import Abacus.Proofs.Subexpressions

/-!
# Pointing

What a fault points at, whichever stage finds it. A scan points at a bad
lexeme. The checks on the tokens and the reading of them point at one token,
or at the two parentheses of an empty group; an evaluation points at a node,
and so at the tokens of the node. The end of the text is pointed at only by
itself. As tokens are lexemes in their places, every fault stands in the
text: it goes from a lexeme to a lexeme that does not come before it, or it
is where the scan ended.
-/

namespace Abacus

/-- Whether a cause is that of a bad lexeme. -/
def Cause.isLexical : Cause → Bool
  | unexpectedCharacter _ | malformedNumeral _ => true
  | _ => false

/-- A span points into a list of tokens: at an end of the text, or from the
first to the last of some tokens that are no ends. -/
def Span.PointsInto (s : Span) (ts : List Token) : Prop :=
  (∃ t ∈ ts, t.kind = .endOfInput ∧ s = t.span) ∨
  ∃ w, w.Sublist ts ∧ (∀ t ∈ w, t.kind ≠ .endOfInput) ∧ s.Delimits w

/-- A fault concerns a list of tokens: no lexeme is bad, and it points into
the list. -/
structure Fault.Concerns (f : Fault) (ts : List Token) : Prop where
  cause : f.cause.isLexical = false
  span : f.span.PointsInto ts

namespace Expr

variable {limits : Limits} {maxDepth limit : Nat} {steps : UInt64} {s : Span}
  {previous token t : Token} {previous? : Option TokenKind} {pending : Pending}
  {groups : List Open} {state state' : State}
  {tokens done w : List Token} {fault : Fault} {e : Expr}

theorem pointsInto_of_mem (ht : t ∈ tokens) : t.span.PointsInto tokens := by
  by_cases hend : t.kind = .endOfInput
  · exact .inl ⟨t, ht, hend, rfl⟩
  · refine .inr ⟨[t], List.singleton_sublist.2 ht, ?_, delimits_singleton t⟩
    exact fun u hu => List.mem_singleton.1 hu ▸ hend

/-! ## Groups -/

/-- Every open group was opened by one of the tokens read so far. -/
def OpenedBy (done : List Token) (groups : List Open) : Prop :=
  ∀ g ∈ groups, ∃ t ∈ done, t.kind = .leftParen ∧ t.span = g.paren

theorem OpenedBy.more (h : OpenedBy done groups) (token : Token) :
    OpenedBy (done ++ [token]) groups := by
  intro g hg
  obtain ⟨t, ht, hopens⟩ := h g hg
  exact ⟨t, List.mem_append_left _ ht, hopens⟩

/-- A `(` opens a group, and no other token does. -/
theorem Moves.openedBy (move : Moves state token state') (h : OpenedBy done state.groups) :
    OpenedBy (done ++ [token]) state'.groups := by
  cases move with
  | opens s =>
    intro g hg
    rcases List.mem_cons.1 hg with rfl | hg
    · exact ⟨⟨.leftParen, s⟩, by simp, rfl, rfl⟩
    · exact h.more _ g hg
  | closes s => exact OpenedBy.more (fun g hg => h g (List.mem_cons_of_mem _ hg)) _
  | _ => exact h.more _

/-! ## Faults of a step -/

/-- What a step can find wrong at a token: it points at the token, at the `(`
of an open group, or at both parentheses of a group that the token closes. -/
inductive Blames (groups : List Open) (token : Token) : Fault → Prop
  | token {cause : Cause} (h : cause.isLexical = false) : Blames groups token ⟨cause, token.span⟩
  | paren {cause : Cause} (h : cause.isLexical = false) {g : Open} (hg : g ∈ groups) :
      Blames groups token ⟨cause, g.paren⟩
  | parens {cause : Cause} (h : cause.isLexical = false) {g : Open} (hg : g ∈ groups)
      (hclose : token.kind = .rightParen) : Blames groups token ⟨cause, g.paren.merge token.span⟩

theorem blames_of_opening? (h : opening? maxDepth pending groups token = some fault) :
    Blames groups token fault := by
  unfold opening? at h
  cases hopened : justOpened? pending groups with
  | none =>
    rw [hopened] at h
    cases h
  | some paren =>
    have hmem : ∃ g ∈ groups, g.paren = paren := by
      cases groups with
      | nil => cases hopened
      | cons nearest groups =>
        simp only [justOpened?] at hopened
        split at hopened
        · exact ⟨nearest, List.mem_cons_self, Option.some.inj hopened⟩
        · cases hopened
    obtain ⟨g, hg, rfl⟩ := hmem
    rw [hopened] at h
    simp only [] at h
    split at h
    · rename_i hclose
      cases h
      exact .parens rfl hg hclose
    · split at h
      · cases h
        exact .paren rfl hg
      · cases h

theorem blames_of_step (h : step maxDepth previous? state token = .error fault) :
    Blames state.groups token fault := by
  cases state with
  | needOperand pending groups =>
    simp only [step] at h
    cases hopening : opening? maxDepth pending groups token with
    | some fault' =>
      rw [hopening] at h
      cases h
      exact blames_of_opening? hopening
    | none =>
      rw [hopening] at h
      obtain ⟨kind, s⟩ := token
      cases kind <;> cases h <;> exact .token rfl
  | haveTerm sum? term groups =>
    obtain ⟨kind, s⟩ := token
    simp only [step] at h
    cases kind <;> cases groups <;> cases h <;> exact .token rfl

theorem blames_of_finish (h : finish maxDepth previous? state token = .error fault) :
    Blames state.groups token fault := by
  cases state with
  | needOperand pending groups =>
    simp only [finish] at h
    cases hopening : opening? maxDepth pending groups token with
    | some fault' =>
      rw [hopening] at h
      cases h
      exact blames_of_opening? hopening
    | none =>
      rw [hopening] at h
      cases h
      exact .token rfl
  | haveTerm sum? term groups => cases groups with
    | nil => cases h
    | cons =>
      cases h
      exact .token rfl

/-- Where the list runs out there is only the last token to point at. -/
theorem concerns_of_runOut (h : runOut state token = .error fault) (ht : token ∈ tokens) :
    fault.Concerns tokens := by
  have htoken := pointsInto_of_mem ht
  cases state with
  | needOperand =>
    cases h
    exact ⟨rfl, htoken⟩
  | haveTerm _ _ groups => cases groups <;> cases h <;> exact ⟨rfl, htoken⟩

/-- What is found wrong at a token concerns the tokens up to it. -/
theorem Blames.concerns (h : Blames groups token fault)
    (horder : InOrder (done ++ token :: tokens)) (hopened : OpenedBy done groups) :
    fault.Concerns (done ++ token :: tokens) := by
  cases h with
  | token h => exact ⟨h, pointsInto_of_mem (by simp)⟩
  | paren h hg =>
    obtain ⟨t, ht, -, hspan⟩ := hopened _ hg
    rw [← hspan]
    exact ⟨h, pointsInto_of_mem (List.mem_append_left _ ht)⟩
  | parens h hg hclose =>
    obtain ⟨t, ht, hopen, hspan⟩ := hopened _ hg
    have hsub : [t, token].Sublist (done ++ token :: tokens) :=
      (List.singleton_sublist.2 ht).append (List.singleton_sublist.2 List.mem_cons_self)
    refine ⟨h, .inr ⟨[t, token], hsub, ?_, ?_⟩⟩
    · simp [hopen, hclose]
    · rw [← hspan]
      exact InOrder.delimits_merge (u := [t]) (x := []) (horder.sublist hsub)
        (delimits_singleton t) (delimits_singleton token)

/-! ## Faults of a list -/

theorem readAfter_concerns (horder : InOrder (done ++ tokens)) (hprevious : previous ∈ done)
    (hopened : OpenedBy done state.groups)
    (h : readAfter maxDepth previous state tokens = .error fault) :
    fault.Concerns (done ++ tokens) := by
  -- what has been read grows with each token, what is left gets shorter
  induction tokens generalizing done previous state with
  | nil => exact concerns_of_runOut h (List.mem_append_left _ hprevious)
  | cons token rest ih =>
    rw [readAfter] at h
    by_cases hend : token.kind = .endOfInput
    · rw [if_pos hend] at h
      exact (blames_of_finish h).concerns horder hopened
    · rw [if_neg hend] at h
      cases hstep : step maxDepth (some previous.kind) state token with
      | error fault' =>
        rw [hstep] at h
        cases h
        exact (blames_of_step hstep).concerns horder hopened
      | ok next =>
        rw [hstep] at h
        obtain ⟨-, move⟩ := step_eq_ok.1 hstep
        rw [List.append_cons] at horder ⊢
        exact ih horder (by simp) (move.openedBy hopened) h

theorem read_concerns (hne : tokens ≠ []) (horder : InOrder tokens)
    (h : read maxDepth tokens = .error fault) : fault.Concerns tokens := by
  cases tokens with
  | nil => exact absurd rfl hne
  | cons token rest =>
    have hopened : OpenedBy [] State.start.groups := fun g hg => absurd hg List.not_mem_nil
    rw [read] at h
    by_cases hend : token.kind = .endOfInput
    · rw [if_pos hend] at h
      cases h
      exact ⟨rfl, pointsInto_of_mem List.mem_cons_self⟩
    · rw [if_neg hend] at h
      cases hstep : step maxDepth none .start token with
      | error fault' =>
        rw [hstep] at h
        cases h
        exact (blames_of_step hstep).concerns (List.nil_append (token :: rest) ▸ horder) hopened
      | ok next =>
        rw [hstep] at h
        obtain ⟨-, move⟩ := step_eq_ok.1 hstep
        have horder' : InOrder ([token] ++ rest) := horder
        exact readAfter_concerns horder' List.mem_cons_self (move.openedBy hopened) h

theorem concerns_of_tooLong? {maxTokens : Nat} (h : tooLong? maxTokens tokens = some fault) :
    fault.Concerns tokens := by
  unfold tooLong? at h
  simp only [] at h
  split at h
  · cases h
  · obtain ⟨t, ht, rfl⟩ := Option.map_eq_some_iff.1 h
    exact ⟨rfl, pointsInto_of_mem (List.mem_of_getElem? ht)⟩

/-- Where the balance fails it is at a `(` opened before or at a token. -/
theorem exists_of_unbalanced? {opened : List Span}
    (h : unbalanced? opened tokens = some fault) : fault.cause.isLexical = false ∧
      (fault.span ∈ opened ∨ ∃ t ∈ tokens, fault.span = t.span) := by
  induction tokens generalizing opened with
  | nil =>
    obtain ⟨s, hs, rfl⟩ := Option.map_eq_some_iff.1 h
    exact ⟨rfl, .inl (List.mem_of_head? hs)⟩
  | cons token rest ih =>
    have hrest : ∀ {opened}, unbalanced? opened rest = some fault →
        fault.cause.isLexical = false ∧
          (fault.span ∈ opened ∨ ∃ t ∈ token :: rest, fault.span = t.span) := by
      intro opened h
      refine (ih h).imp_right (Or.imp_right ?_)
      rintro ⟨t, ht, hspan⟩
      exact ⟨t, List.mem_cons_of_mem _ ht, hspan⟩
    unfold unbalanced? at h
    split at h
    · obtain ⟨hcause, hmem | hmem⟩ := hrest h
      · rcases List.mem_cons.1 hmem with hspan | hmem
        · exact ⟨hcause, .inr ⟨token, List.mem_cons_self, hspan⟩⟩
        · exact ⟨hcause, .inl hmem⟩
      · exact ⟨hcause, .inr hmem⟩
    · cases h
      exact ⟨rfl, .inr ⟨token, List.mem_cons_self, rfl⟩⟩
    · exact (hrest h).imp_right (Or.imp_left (List.mem_cons_of_mem _))
    · exact hrest h

/-- **What a refusal points at** is among the tokens. -/
theorem ofTokens_concerns (hne : tokens ≠ []) (horder : InOrder tokens)
    (h : ofTokens limits tokens = .error fault) : fault.Concerns tokens := by
  rcases cases_of_ofTokens_error h with hlong | hbalance | hread
  · exact concerns_of_tooLong? hlong
  · obtain ⟨hcause, hmem | ⟨t, ht, hspan⟩⟩ := exists_of_unbalanced? hbalance
    · cases hmem
    · exact ⟨hcause, hspan ▸ pointsInto_of_mem ht⟩
  · exact read_concerns hne horder hread

/-! ## Faults of an evaluation -/

/-- What is paid for are nodes. -/
theorem exists_part_of_mem_visits (h : s ∈ visits e) : ∃ n, Part n e ∧ n.span = s := by
  induction e with
  | literal span x =>
    rw [visits, List.mem_singleton] at h
    exact ⟨_, .self, h.symm⟩
  | negate span operand ih =>
    rcases List.mem_cons.1 h with rfl | h
    · exact ⟨_, .self, rfl⟩
    · obtain ⟨n, part, hspan⟩ := ih h
      exact ⟨n, .operand span part, hspan⟩
  | group span inner ih =>
    rcases List.mem_cons.1 h with rfl | h
    · exact ⟨_, .self, rfl⟩
    · obtain ⟨n, part, hspan⟩ := ih h
      exact ⟨n, .inner span part, hspan⟩
  | binary span op left right ihl ihr =>
    have hmem : s ∈ visits left ++ span :: visits right := by
      rw [visits] at h
      cases hleft : value left with
      | ok => rwa [hleft] at h
      | error =>
        rw [hleft] at h
        exact List.mem_append_left _ h
    rcases List.mem_append.1 hmem with h | h
    · obtain ⟨n, part, hspan⟩ := ihl h
      exact ⟨n, .left span op right part, hspan⟩
    · rcases List.mem_cons.1 h with rfl | h
      · exact ⟨_, .self, rfl⟩
      · obtain ⟨n, part, hspan⟩ := ihr h
        exact ⟨n, .right span op left part, hspan⟩

/-- **What a failed evaluation points at** is a node, whether it fails itself
or the steps run out there. -/
theorem exists_part_of_eval (h : ((e.eval limit).run.run steps).1 = .error fault) :
    fault.cause.isLexical = false ∧ ∃ n, Part n e ∧ n.span = fault.span := by
  rw [eval_spends limit e steps] at h
  rcases hpay : Metered.pay limit steps (visits e) with ⟨_ | span, s'⟩
  · rw [hpay] at h
    obtain ⟨n, part, -, hspan⟩ := exists_fails h
    refine ⟨?_, n, part, hspan⟩
    -- a bad lexeme has a kind that no value fails for
    have hkind := value_error_kind h
    rw [Fault.kind] at hkind
    cases hcause : fault.cause with
    | unexpectedCharacter => simp [hcause, Cause.kind] at hkind
    | malformedNumeral => simp [hcause, Cause.kind] at hkind
    | _ => rfl
  · rw [hpay] at h
    cases h
    have hvisit : (Metered.pay limit steps (visits e)).1 = some span := by rw [hpay]
    exact ⟨rfl, exists_part_of_mem_visits (Metered.mem_of_pay hvisit)⟩

end Expr

/-! ## Every fault -/

/-- A fault that some stage finds in a text: the scan; the reading of the
tokens that the scan yields, even next to faults of its own; or the
evaluation of their tree on a meter. -/
inductive FoundIn (limits : Limits) (text : List Char) (f : Fault) : Prop
  | scan (h : f ∈ (Scan.ofText text).faults)
  | reading (h : Expr.ofTokens limits (Scan.ofText text).tokens = .error f)
  | evaluation {e : Expr} {m : Meter}
      (tree : Expr.ofTokens limits (Scan.ofText text).tokens = .ok e)
      (h : (m.evaluate e).1 = .error f)

/-- A span stands in a source: it goes from one lexeme to another that does
not come before it, or it is the place where the scan ends, which is the end
of the text when the scan finds no faults. -/
inductive Span.StandsIn (source : Source) : Span → Prop
  | lexemes {x y : Scan.Placed} (hx : x.IsReached source.text) (hy : y.IsReached source.text)
      (upTo : x.span.first.upTo y.span.last = true) : StandsIn source ⟨x.span.first, y.span.last⟩
  | stop {u v : List Char} (text : source.text = u ++ v) (counts : Position.origin.Counts u)
      (clean : (Scan.ofText source.text).faults = [] → v = []) :
      StandsIn source (.point (Position.origin.after u))

variable {limits : Limits} {source : Source} {text : List Char} {f : Fault} {t : Token} {s : Span}

theorem Scan.exists_lexeme_of_token (hscan : (ofText? text).isSome = true)
    (ht : t ∈ (ofText text).tokens) (hne : t.kind ≠ .endOfInput) :
    ∃ x : Placed, x.IsReached text ∧ t.span = x.span := by
  obtain ⟨u, v, hruns, htext, hread, -⟩ := exists_lexemes_ofText text
  rw [htext] at ht
  rcases List.mem_append.1 ht with ht | ht
  · obtain ⟨x, hx, htoken⟩ := List.mem_filterMap.1 ht
    obtain ⟨hspan, hmeaning⟩ := Placed.span_of_token? htoken
    exact ⟨x, ⟨hmeaning, u, v, hruns, hread hscan, hx⟩, hspan⟩
  · exact absurd (by rw [List.mem_singleton.1 ht]) hne

theorem Scan.exists_lexeme_of_fault (hscan : (ofText? text).isSome = true)
    (hf : f ∈ (ofText text).faults) :
    ∃ x : Placed, x.IsReached text ∧ x.meaning = .bad f.cause ∧ f.span = x.span := by
  obtain ⟨u, v, hruns, htext, hread, -⟩ := exists_lexemes_ofText text
  rw [htext] at hf
  obtain ⟨x, hx, hfault⟩ := List.mem_filterMap.1 hf
  obtain ⟨cause, hcause, rfl⟩ := Option.map_eq_some_iff.1 hfault
  have hbad : x.meaning = .bad cause := by
    cases hmeaning : x.meaning with
    | bad cause' =>
      rw [hmeaning] at hcause
      exact congrArg _ (Option.some.inj hcause)
    | _ =>
      rw [hmeaning] at hcause
      cases hcause
  exact ⟨x, ⟨by simp [hbad], u, v, hruns, hread hscan, hx⟩, hbad, rfl⟩

/-- What points into the tokens of a source stands in the source. -/
theorem Span.PointsInto.standsIn (hscan : (Scan.ofText? source.text).isSome = true)
    (h : s.PointsInto (Scan.ofText source.text).tokens) : s.StandsIn source := by
  rcases h with ⟨t, ht, hend, rfl⟩ | ⟨w, hw, hne, hdelimits⟩
  · obtain ⟨u, v, hruns, htokens, hread, hclean⟩ := Scan.exists_lexemes_ofText source.text
    have hcut := Lexeme.isCut_iff.2 (rfl : _ = Lexeme.runs source.text)
    have htext : source.text = u.flatten ++ v.flatten := by
      rw [← List.flatten_append, ← hruns, hcut.flatten_eq]
    have hspan : t.span = .point (Position.origin.after u.flatten) := by
      rw [htokens] at ht
      rcases List.mem_append.1 ht with ht | ht
      · obtain ⟨x, -, htoken⟩ := List.mem_filterMap.1 ht
        obtain ⟨kind, hkind, rfl⟩ := Option.map_eq_some_iff.1 htoken
        exact absurd (hend ▸ hkind) (Lexeme.kind?_ofRun_ne_end x.run)
      · rw [List.mem_singleton.1 ht]
    rw [hspan]
    exact .stop htext (hread hscan) fun hfaults => by rw [hclean hfaults, List.flatten_nil]
  · have horder := (Scan.inOrder_ofText hscan).sublist hw
    obtain ⟨a, b, ha, hb, rfl⟩ := hdelimits
    have hamem := List.mem_of_head? ha
    have hbmem := List.mem_of_getLast? hb
    obtain ⟨x, hx, hspanx⟩ := Scan.exists_lexeme_of_token hscan (hw.subset hamem) (hne a hamem)
    obtain ⟨y, hy, hspany⟩ := Scan.exists_lexeme_of_token hscan (hw.subset hbmem) (hne b hbmem)
    have hupTo := Position.upTo_trans (horder.head_upTo ha hbmem) (horder.upTo b hbmem)
    rw [hspanx, hspany] at hupTo ⊢
    exact .lexemes hx hy hupTo

/-- A node of the tree of a text points into its tokens. -/
theorem Expr.Part.pointsInto {n e : Expr} (hscan : (Scan.ofText? text).isSome = true)
    (htree : ofTokens limits (Scan.ofText text).tokens = .ok e) (part : Part n e) :
    n.span.PointsInto (Scan.ofText text).tokens := by
  obtain ⟨w, hw, hderives⟩ := (derives_of_scan htree).exists_tokens_of_part part
  have hsub := hw.sublist.trans (List.dropLast_sublist _)
  refine .inr ⟨w, hsub, ?_, hderives.delimits ((Scan.inOrder_ofText hscan).sublist hsub)⟩
  obtain ⟨init, stop, htokens, hne⟩ := Scan.exists_tokens_eq text
  rw [htokens, List.dropLast_concat] at hw
  exact fun t ht => hne t (hw.subset ht)

/-- **Every fault is a bad lexeme or concerns the tokens.** -/
theorem FoundIn.cases (hscan : (Scan.ofText? text).isSome = true) (h : FoundIn limits text f) :
    (∃ x : Scan.Placed, x.IsReached text ∧ x.meaning = .bad f.cause ∧ f.span = x.span) ∨
      f.Concerns (Scan.ofText text).tokens := by
  cases h with
  | scan h => exact .inl (Scan.exists_lexeme_of_fault hscan h)
  | reading h =>
    obtain ⟨w, stop, htokens, -⟩ := Scan.exists_tokens_eq text
    have hne : (Scan.ofText text).tokens ≠ [] := by simp [htokens]
    exact .inr (Expr.ofTokens_concerns hne (Scan.inOrder_ofText hscan) h)
  | evaluation tree h =>
    obtain ⟨hcause, n, part, hspan⟩ := Expr.exists_part_of_eval h
    exact .inr ⟨hcause, hspan ▸ part.pointsInto hscan tree⟩

/-- **Every fault stands in the text**, where the counters get through it. -/
theorem FoundIn.standsIn (hscan : (Scan.ofText? source.text).isSome = true)
    (h : FoundIn limits source.text f) : f.span.StandsIn source := by
  rcases h.cases hscan with ⟨x, hx, -, hspan⟩ | hconcerns
  · have hstands := hx.standsIn
    rw [hspan]
    exact .lexemes hx hx
      (Position.upTo_iff.2 (.inr ⟨congrArg UInt32.toNat hstands.one_line, hstands.col_le_col⟩))
  · exact hconcerns.span.standsIn hscan

/-- What a calculation finds wrong is found by a stage, and by a later one
than the scan only if the scan finds nothing. -/
theorem foundIn_of_calculate {faults : Faults} (h : calculate limits text = .error faults) :
    (Scan.ofText text).faults = faults.toList ∨
      (Scan.ofText text).faults = [] ∧ ∃ f, faults = .one f ∧ FoundIn limits text f := by
  cases hscan : (Scan.ofText text).faults with
  | cons first rest =>
    unfold calculate at h
    simp only [hscan] at h
    cases h
    exact .inl rfl
  | nil =>
    refine .inr ⟨rfl, ?_⟩
    rcases calculate_eq_error h with hfaults | ⟨f, rfl, hnone | ⟨e, htree, heval⟩⟩
    · rw [hscan] at hfaults
      cases hfaults
    · exact ⟨f, rfl, .reading hnone⟩
    · exact ⟨f, rfl, .evaluation (m := ⟨0, stepBudget limits text⟩) htree heval⟩

end Abacus
