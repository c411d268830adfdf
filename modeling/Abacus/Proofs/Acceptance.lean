import Abacus.Proofs.Reading
import Abacus.Proofs.TokenStream

/-!
# Acceptance

Which lists of tokens have a tree, and which tree. The two checks on the
whole list are joined with the reading of what stands before the first end
of the text.
-/

namespace Abacus.Expr

variable {limits : Limits} {maxDepth : Nat} {token : Token} {tokens w : List Token} {e : Expr}

/-- The tokens `w` of a list are an expression with the tree `e`, and the
list keeps within the limits and the balance of parentheses. -/
structure Accepted (limits : Limits) (tokens w : List Token) (e : Expr) : Prop where
  short : tokens.length - 1 ≤ min limits.maxTokens 1000000
  balanced : Balanced tokens
  derives : Derives .expression w e
  nested : NestedWithin (min limits.maxDepth 256) w

theorem tooLong?_eq_none (maxTokens : Nat) (tokens : List Token) :
    tooLong? maxTokens tokens = none ↔ tokens.length - 1 ≤ maxTokens := by
  unfold tooLong?
  by_cases h : tokens.length - 1 ≤ maxTokens
  · simp [h]
  · have hlt : maxTokens < tokens.length := by omega
    simp [h, List.getElem?_eq_getElem hlt]

/-- A tree comes of reading a list that both checks let through. -/
theorem ofTokens_eq_ok_iff_read :
    ofTokens limits tokens = .ok e ↔
      tokens.length - 1 ≤ limits.clamped.maxTokens ∧ Balanced tokens ∧
        read limits.clamped.maxDepth tokens = .ok e := by
  rw [← tooLong?_eq_none, ← unbalanced?_nil_eq_none]
  unfold ofTokens
  cases tooLong? limits.clamped.maxTokens tokens with
  | some fault => simp
  | none => cases unbalanced? [] tokens <;> simp

/-- Where there is no tree, one of the checks or the reading says why. -/
theorem cases_of_ofTokens_error {fault : Fault} (h : ofTokens limits tokens = .error fault) :
    tooLong? limits.clamped.maxTokens tokens = some fault ∨ unbalanced? [] tokens = some fault ∨
      read limits.clamped.maxDepth tokens = .error fault := by
  unfold ofTokens at h
  cases hlong : tooLong? limits.clamped.maxTokens tokens with
  | some fault' =>
    rw [hlong] at h
    exact .inl (congrArg some (Except.error.inj h))
  | none =>
    rw [hlong] at h
    cases hbalance : unbalanced? [] tokens with
    | some fault' =>
      rw [hbalance] at h
      exact .inr (.inl (congrArg some (Except.error.inj h)))
    | none =>
      rw [hbalance] at h
      exact .inr (.inr h)

theorem accepted_of_ofTokens (h : ofTokens limits tokens = .ok e) :
    Accepted limits tokens (beforeEnd tokens) e := by
  obtain ⟨short, balanced, hread⟩ := ofTokens_eq_ok_iff_read.1 h
  obtain ⟨derives, nested⟩ := derives_of_read hread
  exact ⟨short, balanced, derives, nested⟩

/-- An accepted list in which the text ends has its tree. -/
theorem Accepted.ofTokens_eq (h : Accepted limits tokens (beforeEnd tokens) e)
    (hend : ∃ t ∈ tokens, t.kind = .endOfInput) : ofTokens limits tokens = .ok e :=
  ofTokens_eq_ok_iff_read.2 ⟨h.short, h.balanced, read_of_derives hend h.derives h.nested⟩

/-! ## Trees by walks -/

/-- What is walked through from the start is balanced. -/
theorem Walks.balanced {sum? : Option Waiting} {term : Expr}
    (walk : Walks maxDepth .start w (.haveTerm sum? term [])) (hend : token.kind = .endOfInput) :
    Balanced (w ++ [token]) := by
  have hnesting : nesting w = 0 := by
    have hlength := walk.groups_length
    simp only [State.start, State.groups, List.length_nil] at hlength
    omega
  constructor
  · refine forall_prefix_append.2 ⟨?_, ?_⟩
    · -- before the end a prefix stands where its open groups are counted
      rintro q ⟨v, rfl⟩
      obtain ⟨mid, hq, -⟩ := walk.split
      have hlength := hq.groups_length
      simp only [State.start, State.groups, List.length_nil] at hlength
      omega
    · refine forall_prefix_cons.2 ⟨by simp [hnesting], fun q hq => ?_⟩
      rw [List.prefix_nil.1 hq, nesting_append, nesting_cons, hnesting, hend]
      decide
  · rw [nesting_append, nesting_cons, hnesting, hend]
    rfl

/-- A list that ends in its only end of the text has a tree exactly when it
is short enough and is walked through. -/
theorem ofTokens_concat_eq_ok_iff (hne : ∀ t ∈ w, t.kind ≠ .endOfInput)
    (hend : token.kind = .endOfInput) :
    ofTokens limits (w ++ [token]) = .ok e ↔
      w.length ≤ limits.clamped.maxTokens ∧
        ∃ sum? term, Walks limits.clamped.maxDepth .start w (.haveTerm sum? term []) ∧
          complete sum? term = e := by
  have hlength : (w ++ [token]).length - 1 = w.length := by simp
  rw [ofTokens_eq_ok_iff_read, hlength]
  constructor
  · rintro ⟨hshort, -, hread⟩
    refine ⟨hshort, ?_⟩
    obtain ⟨w', t, rest, sum?, term, htokens, ht, walk, rfl⟩ := read_eq_ok_iff_walks.1 hread
    have hbefore : beforeEnd (w ++ [token]) = w := by
      rw [beforeEnd, List.takeWhile_append_of_pos (by simpa using hne)]
      simp [hend]
    rw [htokens, walk.beforeEnd_eq ht] at hbefore
    subst hbefore
    exact ⟨sum?, term, walk, rfl⟩
  · rintro ⟨hshort, sum?, term, walk, rfl⟩
    refine ⟨hshort, walk.balanced hend, ?_⟩
    exact read_eq_ok_iff_walks.2 ⟨w, token, [], sum?, term, rfl, hend, walk, rfl⟩

/-! ## The tokens of a text -/

/-- Of the tokens of a text all but the last stand before the end. -/
theorem beforeEnd_scan (text : List Char) :
    beforeEnd (Scan.ofText text).tokens = (Scan.ofText text).tokens.dropLast := by
  obtain ⟨w, s, heq, hne⟩ := Scan.exists_tokens_eq text
  rw [heq, List.dropLast_concat, beforeEnd, List.takeWhile_append_of_pos (by simpa using hne)]
  simp

/-- The tree of a text is derived from all its tokens but the end. -/
theorem derives_of_scan {text : List Char} (h : ofTokens limits (Scan.ofText text).tokens = .ok e) :
    Derives .expression (Scan.ofText text).tokens.dropLast e := by
  rw [← beforeEnd_scan]
  exact (accepted_of_ofTokens h).derives

theorem exists_end_scan (text : List Char) :
    ∃ t ∈ (Scan.ofText text).tokens, t.kind = .endOfInput := by
  obtain ⟨w, s, heq, -⟩ := Scan.exists_tokens_eq text
  exact ⟨⟨.endOfInput, s⟩, by simp [heq], rfl⟩

/-- **The trees are exactly those of the grammar.** A list in which the text
ends somewhere has a tree exactly when it is not too long, its parentheses
are balanced, and the tokens before the first end derive an expression whose
groups are not nested too deep; and then the tree is the one derived. So
for the tokens of a text, which end in the only end of the text, no
expression within the limits is refused and nothing else is taken for
one. -/
theorem ofTokens_eq_ok_iff (limits : Limits) (e : Expr) :
    (∀ tokens : List Token, (∃ t ∈ tokens, t.kind = .endOfInput) →
      (ofTokens limits tokens = .ok e ↔ Accepted limits tokens (beforeEnd tokens) e)) ∧
    ∀ text, ofTokens limits (Scan.ofText text).tokens = .ok e ↔
      Accepted limits (Scan.ofText text).tokens (Scan.ofText text).tokens.dropLast e := by
  have hiff : ∀ tokens : List Token, (∃ t ∈ tokens, t.kind = .endOfInput) →
      (ofTokens limits tokens = .ok e ↔ Accepted limits tokens (beforeEnd tokens) e) :=
    fun tokens hend => ⟨accepted_of_ofTokens, fun h => h.ofTokens_eq hend⟩
  refine ⟨hiff, fun text => ?_⟩
  rw [hiff _ (exists_end_scan text), beforeEnd_scan]

/-- `-0*(0--0)`, the end, and a group after it that only the balance sees. -/
theorem accepted_negated_product :
    let token := fun kind col => Token.mk kind (.point ⟨1, col⟩)
    let zero := TokenKind.number (.zero false)
    let w := [token .minus 1, token zero 2, token .star 3, token .leftParen 4, token zero 5,
      token .minus 6, token .minus 7, token zero 8, token .rightParen 9]
    let tokens := w ++ [token .endOfInput 10, token .leftParen 11, token .rightParen 12]
    (∃ t ∈ tokens, t.kind = .endOfInput) ∧ ∃ e, Accepted ⟨1, 11, none⟩ tokens w e := by
  intro token zero w tokens
  have hend : ∃ t ∈ tokens, t.kind = .endOfInput := by decide
  exact ⟨hend, _, ((ofTokens_eq_ok_iff ⟨1, 11, none⟩ _).1 tokens hend).1 rfl⟩

end Abacus.Expr
