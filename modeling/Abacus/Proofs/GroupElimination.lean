import Abacus.Proofs.Meanings
import Abacus.Proofs.Refinement
import Abacus.Proofs.StepBudget

/-!
# GroupElimination

A group may be replaced by the text of its value. The walk through a text
with a group in it comes to the group where an operand is needed, and leaves
it with an operand that has the group's value; the numeral that stands for
the value, with the `-` it may have, leads to a state that may stand in. In
the text the numeral stays a lexeme by itself, since no number can stand
next to a group.
-/

namespace Abacus

namespace Expr

variable {maxDepth : Nat} {limits : Limits} {state state' next : State} {token : Token}
  {u w w' n : List Token} {e inner : Expr} {pending : Pending} {groups : List Open}

/-! ## Numbers and groups -/

/-- After a number a term is complete. -/
theorem Walks.haveTerm_of_number {x : Double} (walk : Walks maxDepth state (u ++ [token]) next)
    (hkind : token.kind = .number x) : ∃ sum? term groups, next = .haveTerm sum? term groups := by
  obtain ⟨mid, -, hlast⟩ := walk.split
  obtain ⟨kind, s⟩ := token
  simp only at hkind
  subst hkind
  cases hlast with
  | cons _ move hnil =>
    cases hnil
    cases move with
    | number => exact ⟨_, _, _, rfl⟩
    | sign h => cases h
    | sum h => cases h
    | product h => cases h

/-- No number comes where a term is complete. -/
theorem Moves.ne_number {sum? : Option Waiting} {term : Expr} {x : Double}
    (move : Moves (.haveTerm sum? term groups) token next) : token.kind ≠ .number x := by
  intro hkind
  cases move with
  | sum h =>
    rw [hkind] at h
    cases h
  | product h =>
    rw [hkind] at h
    cases h
  | closes => cases hkind

/-- **What a walk does with a group**: it comes to it where an operand is
needed, and leaves with an operand. Inside it does what it would do with the
tokens of the group alone. -/
theorem Walks.exists_group {maxDepth' : Nat} {s s' : Span} {sum? : Option Waiting} {term : Expr}
    (walk : Walks maxDepth state (⟨.leftParen, s⟩ :: (w ++ [⟨.rightParen, s'⟩])) next)
    (alone : Walks maxDepth' .start w' (.haveTerm sum? term []))
    (hkinds : w.map Token.kind = w'.map Token.kind) :
    ∃ pending groups inner, state = .needOperand pending groups ∧
      state.opening? maxDepth ⟨.leftParen, s⟩ = none ∧
      Refines (complete sum? term) inner ∧
      next = .ofOperand pending (.group (s.merge s') inner) groups := by
  cases walk with
  | cons passes opens walk => cases opens with
    | sign h => cases h
    | sum h => cases h
    | product h => cases h
    | @opens pending groups =>
      obtain ⟨mid, inside, closing⟩ := walk.split
      -- the group is one more below, so the walk inside is the walk alone
      have hinside := alone.refines_of_walks inside (.start (⟨s, pending⟩ :: groups)) hkinds
      cases hinside with
      | haveTerm sum term_refines rest => cases rest with
        | nil => cases closing with
          | cons _ closes hnil =>
            cases hnil
            cases closes with
            | closes =>
              exact ⟨pending, groups, _, rfl, passes, sum.complete term_refines, rfl⟩
            | sum h => cases h
            | product h => cases h

/-! ## A numeral for a group -/

/-- The kinds of token that the text of a number consists of. -/
def printedKinds (minus : Bool) (y : Double) : List TokenKind :=
  (if minus = true then [.minus] else []) ++ [.number y]

theorem length_printedKinds_le (minus : Bool) (y : Double) :
    (printedKinds minus y).length ≤ 2 := by
  cases minus
  · exact Nat.le_succ 1
  · exact Nat.le_refl 2

/-- The signs before a number, with the `-` that it may have. -/
def printedSigns (minus : Bool) (signs? : Option Signs) (s : Span) : Option Signs :=
  if minus = true then some (addSign signs? s true) else signs?

theorem oddSigns_printedSigns (minus : Bool) (signs? : Option Signs) (s : Span) :
    oddSigns (printedSigns minus signs? s) = (oddSigns signs? ^^ minus) := by
  cases minus
  · exact (Bool.xor_false _).symm
  · exact oddSigns_addSign signs? s true

/-- A number with its `-` may stand in for a group of the same value. The
`-` costs a node at most, and that is the node of the group. -/
theorem Refines.printed {minus : Bool} {signs? signs'? : Option Signs} {x y : Double}
    (hsigns : oddSigns signs? = oddSigns signs'?) (hx : value? inner = some x)
    (hy : y.isFinite = true) (hxy : x.numEq (y.negIf minus) = true) (s s' s'' : Span) :
    Refines (Expr.signed signs? (Expr.group s inner))
      (Expr.signed (printedSigns minus signs'? s') (Expr.literal s'' y)) := by
  constructor
  · have hpos := size_pos inner
    have hbit := Bool.toNat_le (oddSigns signs'? ^^ minus)
    rw [size_signed, size_signed, oddSigns_printedSigns, size, size]
    omega
  · intro z hz
    have hgroup : value? (Expr.group s inner) = some x := hx
    rw [value?_signed, hgroup, Option.map_some, Option.some.injEq] at hz
    refine ⟨y.negIf (oddSigns signs'? ^^ minus), ?_, ?_⟩
    · rw [value?_signed, value?_literal, if_pos hy, Option.map_some, oddSigns_printedSigns]
    · have hneg := Double.negIf_numEq (isFinite_of_value? hx) hxy (oddSigns signs?)
      rw [hz, Double.negIf_negIf, hsigns, Bool.xor_comm] at hneg
      exact hneg

/-- The tokens of a number are walked through where an operand is needed. -/
theorem exists_walks_printed {minus : Bool} {y : Double}
    (hn : n.map Token.kind = printedKinds minus y)
    (passes : ∀ t : Token, t.kind ≠ .rightParen →
      (State.needOperand pending groups).opening? maxDepth t = none) :
    ∃ s s', Walks maxDepth (.needOperand pending groups) n
      (.ofOperand { pending with signs? := printedSigns minus pending.signs? s }
        (.literal s' y) groups) := by
  cases minus with
  | false =>
    obtain ⟨⟨kind, s⟩, rfl, hkind⟩ := List.map_eq_singleton_iff.1 hn
    simp only at hkind
    subst hkind
    exact ⟨s, s, .single (passes _ (by simp)) (.number s y)⟩
  | true =>
    obtain ⟨⟨kind, s⟩, rest, rfl, hkind, hrest⟩ := List.map_eq_cons_iff.1 hn
    obtain ⟨⟨kind', s'⟩, rfl, hkind'⟩ := List.map_eq_singleton_iff.1 hrest
    simp only at hkind hkind'
    subst hkind hkind'
    refine ⟨s, s', .cons (passes _ (by simp)) (.sign rfl) (.single ?_ (.number s' y))⟩
    exact opening?_of_ne_none (by simp [Pending.none]) groups _

/-- **The text of its value may stand in for a group.** -/
theorem StateRefines.printed {minus : Bool} {x y : Double} {s : Span}
    (h : StateRefines [] (.needOperand pending groups) state')
    (passes : (State.needOperand pending groups).opening? maxDepth token = none)
    (hparen : token.kind = .leftParen) (hx : value? inner = some x) (hy : y.isFinite = true)
    (hxy : x.numEq (y.negIf minus) = true) (hn : n.map Token.kind = printedKinds minus y) :
    ∃ next', Walks maxDepth state' n next' ∧
      StateRefines [] (.ofOperand pending (.group s inner) groups) next' := by
  have passes' : ∀ t : Token, t.kind ≠ .rightParen → state'.opening? maxDepth t = none :=
    fun t ht => h.opening?_eq_none (by simp [hparen, ht]) passes
  cases h with
  | needOperand wait rest =>
    obtain ⟨s', s'', walk⟩ := exists_walks_printed hn passes'
    exact ⟨_, walk, .ofOperand wait.sum wait.product
      (.printed wait.signs hx hy hxy s s' s'') rest⟩

/-! ## Tokens around a group -/

/-- A walk through the tokens `u`, a group with the value of `alone`, and
the tokens `v`, that ends with the tree `e`. -/
structure WalkAround (maxDepth : Nat) (u v : List Token) (alone e : Expr) (pending : Pending)
    (groups : List Open) (s : Span) (inner : Expr) : Prop where
  before : Walks maxDepth .start u (.needOperand pending groups)
  passes : ∃ s, (State.needOperand pending groups).opening? maxDepth ⟨.leftParen, s⟩ = none
  refines : Refines alone inner
  after : ∃ sum? term,
    Walks maxDepth (.ofOperand pending (.group s inner) groups) v (.haveTerm sum? term []) ∧
      complete sum? term = e

/-- The walk that a tree with a group in it comes from. -/
theorem exists_walkAround {v : List Token} {t t' : Token} {limits' : Limits} {s s' : Span}
    {alone : Expr}
    (h : ofTokens limits (u ++ ⟨.leftParen, s⟩ :: (w ++ ⟨.rightParen, s'⟩ :: v) ++ [t]) = .ok e)
    (hne : ∀ t ∈ u ++ ⟨.leftParen, s⟩ :: (w ++ ⟨.rightParen, s'⟩ :: v), t.kind ≠ .endOfInput)
    (hend : t.kind = .endOfInput) (halone : ofTokens limits' (w' ++ [t']) = .ok alone)
    (hne' : ∀ t ∈ w', t.kind ≠ .endOfInput) (hend' : t'.kind = .endOfInput)
    (hkinds : w.map Token.kind = w'.map Token.kind) :
    ∃ pending groups s inner,
      WalkAround limits.clamped.maxDepth u v alone e pending groups s inner := by
  obtain ⟨-, sum?, term, walk, rfl⟩ := (ofTokens_concat_eq_ok_iff hne hend).1 h
  obtain ⟨-, sum'?, term', walk', rfl⟩ := (ofTokens_concat_eq_ok_iff hne' hend').1 halone
  have hsplit : u ++ (⟨.leftParen, s⟩ : Token) :: (w ++ ⟨.rightParen, s'⟩ :: v) =
      u ++ (⟨.leftParen, s⟩ :: (w ++ [⟨.rightParen, s'⟩]) ++ v) := by simp
  rw [hsplit] at walk
  obtain ⟨state, before, walk⟩ := walk.split
  obtain ⟨next, group, after⟩ := walk.split
  obtain ⟨pending, groups, inner, rfl, passes, refines, rfl⟩ := group.exists_group walk' hkinds
  exact ⟨pending, groups, _, inner, before, ⟨s, passes⟩, refines, sum?, term, after, rfl⟩

variable {u' v v' : List Token} {s : Span} {alone : Expr}

/-- No number stands before a group. -/
theorem WalkAround.ne_number_before (h : WalkAround maxDepth u v alone e pending groups s inner)
    {ks : List TokenKind} {x : Double} : u.map Token.kind ≠ ks ++ [.number x] := by
  intro hkinds
  obtain ⟨u, rest, rfl, -, hrest⟩ := List.map_eq_append_iff.1 hkinds
  obtain ⟨t, rfl, ht⟩ := List.map_eq_singleton_iff.1 hrest
  obtain ⟨sum?, term, groups, hstate⟩ := h.before.haveTerm_of_number ht
  cases hstate

/-- No number stands after a group. -/
theorem WalkAround.ne_number_after (h : WalkAround maxDepth u v alone e pending groups s inner)
    {ks : List TokenKind} {x : Double} : v.map Token.kind ≠ .number x :: ks := by
  intro hkinds
  obtain ⟨t, rest, rfl, ht, -⟩ := List.map_eq_cons_iff.1 hkinds
  obtain ⟨sum?, term, walk, -⟩ := h.after
  cases walk with
  | cons _ move _ => exact move.ne_number ht

/-- **With the text of its value in place of the group** a list still has a
tree, and it may stand in for the one before. -/
theorem WalkAround.exists_refines (h : WalkAround maxDepth u v alone e pending groups s inner)
    {minus : Bool} {z y : Double} (hz : value? alone = some z) (hy : y.isFinite = true)
    (hzy : z.numEq (y.negIf minus) = true) (hu : u'.map Token.kind = u.map Token.kind)
    (hn : n.map Token.kind = printedKinds minus y) (hv : v'.map Token.kind = v.map Token.kind) :
    ∃ sum? term, Walks maxDepth .start (u' ++ (n ++ v')) (.haveTerm sum? term []) ∧
      Refines e (complete sum? term) := by
  obtain ⟨sum?, term, after, rfl⟩ := h.after
  obtain ⟨s', passes⟩ := h.passes
  obtain ⟨x, hx, hzx⟩ := h.refines.value z hz
  have hxy : x.numEq (y.negIf minus) = true := by
    have hxz := Double.numEq_symm (isFinite_of_value? hz) hzx
    exact Double.numEq_trans (isFinite_of_value? hx) hxz hzy
  obtain ⟨state', walku, hstate⟩ := h.before.refines (.start []) hu
  obtain ⟨next', walkn, hnext⟩ := hstate.printed passes rfl hx hy hxy hn
  obtain ⟨last', walkv, hlast⟩ := after.refines hnext hv
  cases hlast with
  | haveTerm sum term_refines rest => cases rest with
    | nil => exact ⟨_, _, walku.append (walkn.append walkv), sum.complete term_refines⟩

end Expr

/-! ## Texts with a group -/

namespace Lexeme

variable {p q run : List Char}

/-- The text of a number, where no digit or point stands next to it. -/
theorem meanings_printed (minus : Bool) (hrun : Numeral.WellFormed run)
    (hp : ∀ c ∈ p.getLast?, Numeral.isNumeralChar c = false)
    (hq : ∀ c ∈ q.head?, Numeral.isNumeralChar c = false) :
    meanings (p ++ ((if minus = true then ['-'] else []) ++ run ++ q)) =
      meanings p ++ ((Expr.printedKinds minus (Numeral.value run)).map token ++ meanings q) := by
  cases minus with
  | true =>
    have hminus : IsSymbol '-' := ⟨by decide, by decide, by decide⟩
    exact (meanings_append_symbol p hminus (run ++ q)).trans
      (congrArg (fun ms => meanings p ++ token .minus :: ms) (meanings_numeral_append hrun hq))
  | false =>
    refine (meanings_append ?_).trans
      (congrArg (fun ms => meanings p ++ ms) (meanings_numeral_append hrun hq))
    -- a digit or point is joined only to another one
    intro x hx y hy
    have hy' : y ∈ run := by
      obtain ⟨c, cs, rfl⟩ := List.exists_cons_of_ne_nil hrun.ne_nil
      cases hy
      exact List.mem_cons_self
    have hblank := isBlank_of_isNumeralChar (hrun.isNumeralChar y hy')
    simp [joined, hblank, hp x hx]

theorem meanings_group (p t q : List Char) :
    meanings (p ++ '(' :: (t ++ ')' :: q)) =
      meanings p ++ token .leftParen :: (meanings t ++ token .rightParen :: meanings q) := by
  have hopen : IsSymbol '(' := ⟨by decide, by decide, by decide⟩
  have hclose : IsSymbol ')' := ⟨by decide, by decide, by decide⟩
  rw [meanings_append_symbol p hopen, meanings_append_symbol t hclose]
  rfl

theorem kinds_group (p t q : List Char) :
    kinds (p ++ '(' :: (t ++ ')' :: q)) =
      kinds p ++ .leftParen :: (kinds t ++ .rightParen :: kinds q) := by
  simp [kinds, meanings_group, kind?]

theorem causes_group (p t q : List Char) :
    causes (p ++ '(' :: (t ++ ')' :: q)) = causes p ++ (causes t ++ causes q) := by
  have hnone : ∀ k, cause? (token k) = none := fun _ => rfl
  rw [causes, meanings_group, List.filterMap_append, List.filterMap_cons_none (hnone _),
    List.filterMap_append, List.filterMap_cons_none (hnone _)]
  rfl

theorem filterMap_map_token (ks : List TokenKind) :
    (ks.map token).filterMap kind? = ks ∧ (ks.map token).filterMap cause? = [] := by
  induction ks with
  | nil => exact ⟨rfl, rfl⟩
  | cons k ks ih => exact ⟨congrArg (k :: ·) ih.1, ih.2⟩

theorem kinds_printed (minus : Bool) (hrun : Numeral.WellFormed run)
    (hp : ∀ c ∈ p.getLast?, Numeral.isNumeralChar c = false)
    (hq : ∀ c ∈ q.head?, Numeral.isNumeralChar c = false) :
    kinds (p ++ ((if minus = true then ['-'] else []) ++ run ++ q)) =
        kinds p ++ (Expr.printedKinds minus (Numeral.value run) ++ kinds q) ∧
      causes (p ++ ((if minus = true then ['-'] else []) ++ run ++ q)) = causes p ++ causes q := by
  obtain ⟨hprinted, hnone⟩ := filterMap_map_token (Expr.printedKinds minus (Numeral.value run))
  have hmeanings := meanings_printed minus hrun hp hq
  constructor
  · rw [kinds, hmeanings, List.filterMap_append, List.filterMap_append, hprinted]
    rfl
  · rw [causes, hmeanings, List.filterMap_append, List.filterMap_append, hnone]
    rfl

end Lexeme

namespace Expr

variable {maxDepth : Nat} {limits : Limits} {p t q text : List Char} {u v : List Token}
  {e alone inner : Expr} {pending : Pending} {groups : List Open} {s : Span}

/-- The walk through a text with a group in it. It takes two tokens more
than there are around the group at least. -/
theorem exists_walkAround_of_text {limits' : Limits}
    (hclean : Lexeme.causes (p ++ '(' :: (t ++ ')' :: q)) = [])
    (htree : ofTokens limits (Scan.ofText (p ++ '(' :: (t ++ ')' :: q))).tokens = .ok e)
    (hclean' : Lexeme.causes t = [])
    (halone : ofTokens limits' (Scan.ofText t).tokens = .ok alone) :
    ∃ u v pending groups s inner,
      u.map Token.kind = Lexeme.kinds p ∧ v.map Token.kind = Lexeme.kinds q ∧
      u.length + v.length + 2 ≤ limits.clamped.maxTokens ∧
      WalkAround limits.clamped.maxDepth u v alone e pending groups s inner := by
  obtain ⟨all, tend, htokens, hkinds, hend, hne⟩ := Scan.exists_tokens_of_clean hclean
  obtain ⟨w', tend', htokens', hkinds', hend', hne'⟩ := Scan.exists_tokens_of_clean hclean'
  -- the tokens of the parts, one part after the other
  rw [Lexeme.kinds_group] at hkinds
  obtain ⟨u, rest, rfl, hu, hrest⟩ := List.map_eq_append_iff.1 hkinds
  obtain ⟨⟨kopen, s⟩, rest, rfl, hopen, hrest⟩ := List.map_eq_cons_iff.1 hrest
  obtain ⟨w, rest, rfl, hw, hrest⟩ := List.map_eq_append_iff.1 hrest
  obtain ⟨⟨kclose, s'⟩, v, rfl, hclose, hv⟩ := List.map_eq_cons_iff.1 hrest
  simp only at hopen hclose
  subst hopen hclose
  rw [htokens] at htree
  rw [htokens'] at halone
  have hshort := ((ofTokens_concat_eq_ok_iff hne hend).1 htree).1
  simp only [List.length_append, List.length_cons] at hshort
  obtain ⟨pending, groups, span, inner, around⟩ :=
    exists_walkAround htree hne hend halone hne' hend' (hw.trans hkinds'.symm)
  exact ⟨u, v, pending, groups, span, inner, hu, hv, by omega, around⟩

/-- No digit or point stands next to a group. -/
theorem WalkAround.not_isNumeralChar
    (h : WalkAround maxDepth u v alone e pending groups s inner)
    (hu : u.map Token.kind = Lexeme.kinds p) (hv : v.map Token.kind = Lexeme.kinds q)
    (hp : Lexeme.causes p = []) (hq : Lexeme.causes q = []) :
    (∀ c ∈ p.getLast?, Numeral.isNumeralChar c = false) ∧
      ∀ c ∈ q.head?, Numeral.isNumeralChar c = false := by
  constructor
  · intro c hc
    refine Bool.eq_false_iff.2 fun hnumeral => ?_
    obtain ⟨ks, y, hks⟩ := Lexeme.exists_kinds_eq_concat hc hnumeral hp
    exact h.ne_number_before (hu.trans hks)
  · intro c hc
    refine Bool.eq_false_iff.2 fun hnumeral => ?_
    obtain ⟨y, ks, hks⟩ := Lexeme.exists_kinds_eq_cons hc hnumeral hq
    exact h.ne_number_after (hv.trans hks)

/-- A text that is scanned as the parts around the group, and the text of
the group's value between them, has a tree that may stand in. -/
theorem WalkAround.exists_ofTokens {minus : Bool} {z y : Double}
    (h : WalkAround limits.clamped.maxDepth u v alone e pending groups s inner)
    (hz : value? alone = some z) (hy : y.isFinite = true) (hzy : z.numEq (y.negIf minus) = true)
    (hshort : u.length + v.length + 2 ≤ limits.clamped.maxTokens)
    (hclean : Lexeme.causes text = [])
    (hkinds : Lexeme.kinds text =
      u.map Token.kind ++ (printedKinds minus y ++ v.map Token.kind)) :
    ∃ e', ofTokens limits (Scan.ofText text).tokens = .ok e' ∧ Refines e e' := by
  obtain ⟨all, tend, htokens, hall, hend, hne⟩ := Scan.exists_tokens_of_clean hclean
  rw [hkinds] at hall
  obtain ⟨u', rest, rfl, hu, hrest⟩ := List.map_eq_append_iff.1 hall
  obtain ⟨n, v', rfl, hn, hv⟩ := List.map_eq_append_iff.1 hrest
  obtain ⟨sum?, term, walk, refines⟩ := h.exists_refines hz hy hzy hu hn hv
  refine ⟨complete sum? term, ?_, refines⟩
  rw [htokens]
  refine (ofTokens_concat_eq_ok_iff hne hend).2 ⟨?_, sum?, term, walk, rfl⟩
  -- the `-` and the number are no more tokens than the parentheses
  have hlengthn := length_printedKinds_le minus y
  rw [← hn, List.length_map] at hlengthn
  have hlengthu := congrArg List.length hu
  have hlengthv := congrArg List.length hv
  simp only [List.length_map] at hlengthu hlengthv
  simp only [List.length_append]
  omega

end Expr

/-- A group in a text may be replaced by the text of its value. -/
theorem calculate_replace_group {limits : Limits} {p t q : List Char} {v w : Number}
    (hgroup : calculate limits (p ++ '(' :: (t ++ ')' :: q)) = .ok w)
    (hvalue : calculate limits t = .ok v) :
    calculate limits (p ++ (v.text.toList ++ q)) = .ok w := by
  obtain ⟨hclean, e, x, htree, hx, hsteps, rfl⟩ := calculate_eq_ok_iff.1 hgroup
  obtain ⟨hclean', alone, z, halone, hz, -, rfl⟩ := calculate_eq_ok_iff.1 hvalue
  rw [Scan.faults_eq_nil_iff] at hclean hclean'
  have hparts := hclean
  rw [Lexeme.causes_group, List.append_eq_nil_iff, List.append_eq_nil_iff] at hparts
  obtain ⟨hp, -, hq⟩ := hparts
  obtain ⟨u, r, pending, groups, s, inner, hu, hr, hshort, around⟩ :=
    Expr.exists_walkAround_of_text hclean htree hclean' halone
  obtain ⟨hbefore, hafter⟩ := around.not_isNumeralChar hu hr hp hq
  -- the text of the value is scanned as it was printed
  obtain ⟨minus, run, htext, hrun, hy, hzy⟩ :=
    Number.exists_numeral (Expr.isFinite_of_value hz)
  obtain ⟨hkinds, hcauses⟩ := Lexeme.kinds_printed minus hrun hbefore hafter
  rw [← htext] at hkinds hcauses
  rw [hp, hq, List.append_nil] at hcauses
  rw [← hu, ← hr] at hkinds
  obtain ⟨e', htree', refines⟩ :=
    around.exists_ofTokens (Expr.value?_eq_some.2 hz) hy hzy hshort hcauses hkinds
  obtain ⟨x', hx', hxx'⟩ := refines.value x (Expr.value?_eq_some.2 hx)
  refine calculate_eq_ok_iff.2 ⟨(Scan.faults_eq_nil_iff _).2 hcauses, e', x', htree',
    Expr.value?_eq_some.1 hx', fun k hk => Nat.le_trans refines.size_le (hsteps k hk), ?_⟩
  exact (Number.ofDouble_eq_of_numEq (Expr.isFinite_of_value hx) hxx').symm

/-- **A group may be replaced by the text of its value.** If a text with a
group in it has a result, and what stands in the group has one by itself,
then the text with that result written in place of the group has the result
it had before, within the same limits. -/
theorem evaluate_replace_group {limits : Limits} {p t q : String} {v w : Number}
    (hgroup : evaluate (p ++ "(" ++ t ++ ")" ++ q) limits = .ok w)
    (hvalue : evaluate t limits = .ok v) : evaluate (p ++ v.text ++ q) limits = .ok w := by
  rw [evaluate_eq_ok_iff] at *
  simp only [String.toList_append, List.append_assoc] at *
  exact calculate_replace_group hgroup hvalue

/-- The `-` of the value joins the run of signs before the group: what
`2-(1-3/2)*4` comes to, `2--0.5*4` comes to. -/
theorem evaluate_replace_group_half :
    let half : Number := .real (.finite true ⟨1022 * 4503599627370496, by decide⟩)
    evaluate "2-(1-3/2)*4" .standard = .ok (.integer 4) ∧
      evaluate "1-3/2" .standard = .ok half ∧ half.text = "-0.5" ∧
      evaluate "2--0.5*4" .standard = .ok (.integer 4) := by
  intro half
  have hgroup : evaluate ("2-" ++ "(" ++ "1-3/2" ++ ")" ++ "*4") .standard = .ok (.integer 4) := by
    decide +kernel
  have hvalue : evaluate "1-3/2" .standard = .ok half := by decide +kernel
  have htext : half.text = "-0.5" := by decide +kernel
  have hreplaced := evaluate_replace_group hgroup hvalue
  rw [htext] at hreplaced
  exact ⟨hgroup, hvalue, htext, hreplaced⟩

end Abacus
