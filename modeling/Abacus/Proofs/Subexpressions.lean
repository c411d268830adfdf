import Abacus.Proofs.Meanings
import Abacus.Proofs.Parts
import Abacus.Proofs.Places

/-!
# Subexpressions

The text behind a node of a tree. The tokens of a node are lexemes that
stand next to each other but for white space, so the span of the node marks
out a stretch of the text. The stretch is cut into lexemes as it was within
the text, and so has the node as its tree when it stands by itself. What has
no value is such a node too, and its stretch is what a fault points at.
-/

namespace Abacus

/-- A span marks out the stretch `w` of a text, after `u`: it begins at the
first character of the stretch and ends at the last. -/
structure Span.MarksOut (s : Span) (u w : List Char) : Prop where
  ne_nil : w ≠ []
  first : s.first = Position.origin.after u
  last : s.last = Position.origin.after (u ++ w.dropLast)

/-! ## Stretches of lexemes -/

/-- What is picked from a list without a gap is picked from a part of it
that begins and ends with something picked. -/
theorem exists_stretch_of_filterMap {α β : Type} {f : α → Option β} {xs : List α} {w : List β}
    {a b : β} (hw : w <:+: xs.filterMap f) (ha : w.head? = some a) (hb : w.getLast? = some b) :
    ∃ ys x y, ys <:+: xs ∧ ys.filterMap f = w ∧ ys.head? = some x ∧ f x = some a ∧
      ys.getLast? = some y ∧ f y = some b := by
  obtain ⟨u, v, huv⟩ := hw
  obtain ⟨before, after, rfl, hbefore, -⟩ := List.filterMap_eq_append_iff.1 huv.symm
  obtain ⟨before, within, rfl, -, hwithin⟩ := List.filterMap_eq_append_iff.1 hbefore
  -- from the first that is picked on
  obtain ⟨w, rfl⟩ := List.head?_eq_some_iff.1 ha
  obtain ⟨skipped, x, rest, rfl, -, hx, hrest⟩ := List.filterMap_eq_cons_iff.1 hwithin
  have hfrom : (x :: rest).filterMap f = a :: w := by rw [List.filterMap_cons_some hx, hrest]
  -- and up to the last
  obtain ⟨w', hw'⟩ := List.getLast?_eq_some_iff.1 hb
  rw [hw'] at hfrom
  obtain ⟨most, tail, hsplit, hmost, htail⟩ := List.filterMap_eq_append_iff.1 hfrom
  obtain ⟨skipped', y, left, rfl, hskipped, hy, -⟩ := List.filterMap_eq_cons_iff.1 htail
  refine ⟨most ++ skipped' ++ [y], x, y, ?_, ?_, ?_, hx, ?_, hy⟩
  · refine ⟨before ++ skipped, left ++ after, ?_⟩
    rw [hsplit]
    simp only [List.append_assoc, List.cons_append, List.nil_append]
  · rw [hw', List.filterMap_append, List.filterMap_append, hmost,
      List.filterMap_eq_nil_iff.2 hskipped, List.append_nil, List.filterMap_cons_some hy,
      List.filterMap_nil]
  · have hhead : (most ++ skipped' ++ [y] ++ left).head? = some x := by
      rw [List.append_assoc, List.append_assoc, List.singleton_append, ← hsplit]
      rfl
    rwa [List.head?_append_of_ne_nil _ (by simp)] at hhead
  · exact List.getLast?_concat

/-- Lexemes that stand next to each other in a text are the lexemes of the
stretch that they make up. -/
theorem Lexeme.runs_flatten {text : List Char} {runs : List (List Char)}
    (h : runs <:+: Lexeme.runs text) : Lexeme.runs runs.flatten = runs := by
  have hcut := isCut_iff.2 (rfl : _ = Lexeme.runs text)
  refine (isCut_iff.1 ⟨rfl, fun run hrun => ?_, List.IsChain.infix hcut.maximal h⟩).symm
  exact hcut.lexemes run (h.subset hrun)

namespace Scan

variable {p : Position} {runs : List (List Char)} {xs ys : List Placed} {x : Placed} {t : Token}

theorem Placed.span_of_token? (h : x.token? = some t) : t.span = x.span ∧ x.meaning ≠ .blank := by
  obtain ⟨kind, hkind, rfl⟩ := Option.map_eq_some_iff.1 h
  refine ⟨rfl, fun hblank => ?_⟩
  rw [hblank] at hkind
  cases hkind

/-- A lexeme that is not white space ends where its last character stands. -/
theorem Placed.Counted.last_eq_after (hcounted : x.Counted) (h : Lexeme.IsLexeme x.run)
    (hmeaning : x.meaning ≠ .blank) : x.span.last = x.start.after x.run.dropLast := by
  have hfeed : '\n' ∉ x.run.dropLast := fun hmem =>
    Placed.lineFeed_not_mem h hmeaning ((List.dropLast_sublist _).subset hmem)
  have hpos := Placed.length_pos h
  have hcol := (hcounted.counts.of_prefix (List.dropLast_prefix _)).toNat_col_after hfeed
  obtain ⟨hsame, hlast⟩ := hcounted.last_span h hmeaning
  refine Position.eq_of_toNat ?_ ?_
  · rw [hsame, Position.line_after hfeed]
  · rw [hlast, hcol, List.length_dropLast, Nat.add_sub_assoc hpos]

/-- Tokens come in the order of the lexemes. -/
theorem inOrder_placed (hcounts : p.Counts runs.flatten) (hp : 1 ≤ p.col.toNat)
    (hruns : ∀ run ∈ runs, Lexeme.IsLexeme run) :
    Expr.InOrder ((placed p runs).filterMap Placed.token?) := by
  constructor
  · intro t ht
    obtain ⟨x, hx, htoken⟩ := List.mem_filterMap.1 ht
    have hcounted := counted_of_mem_placed hcounts hp hx
    obtain ⟨u, v, rfl, -⟩ := exists_of_mem_placed hx
    have hlexeme := hruns x.run (by simp)
    have hpos := Placed.length_pos hlexeme
    obtain ⟨hspan, hmeaning⟩ := Placed.span_of_token? htoken
    obtain ⟨hsame, hlast⟩ := hcounted.last_span hlexeme hmeaning
    rw [hspan, Position.upTo_iff, hsame, hlast]
    refine .inr ⟨rfl, ?_⟩
    show x.start.col.toNat ≤ _
    omega
  · refine (pairwise_placed hcounts hp hruns).filterMap _ fun x y h a ha b hb => ?_
    obtain ⟨hspan, hmeaning⟩ := Placed.span_of_token? ha
    rw [hspan, (Placed.span_of_token? hb).1]
    exact h hmeaning

theorem last_before_of_mem (hcounts : p.Counts runs.flatten) (hp : 1 ≤ p.col.toNat)
    (hruns : ∀ run ∈ runs, Lexeme.IsLexeme run) (hx : x ∈ placed p runs)
    (hmeaning : x.meaning ≠ .blank) : x.span.last.Before (p.after runs.flatten) := by
  have hcounted := counted_of_mem_placed hcounts hp hx
  obtain ⟨u, v, rfl, hstart⟩ := exists_of_mem_placed hx
  have hbefore := hcounted.last_before (hruns x.run (by simp)) hmeaning
  rw [List.flatten_append, List.flatten_cons, Position.counts_append, Position.counts_append,
    ← hstart] at hcounts
  rw [List.flatten_append, List.flatten_cons, Position.after_append, Position.after_append,
    ← hstart]
  exact hbefore.trans_upTo hcounts.2.2.upTo_after

/-- **The tokens of a text come in order**, the end included, where the
counters get through the text. -/
theorem inOrder_ofText {text : List Char} (hscan : (ofText? text).isSome = true) :
    Expr.InOrder (ofText text).tokens := by
  obtain ⟨u, v, hruns, htext, hread, -⟩ := exists_lexemes_ofText text
  have hcounts := hread hscan
  have hlexemes : ∀ run ∈ u, Lexeme.IsLexeme run := fun run hrun =>
    Lexeme.isLexeme_of_mem_runs (hruns ▸ List.mem_append_left v hrun)
  have horder : Expr.InOrder ((placed .origin u).filterMap Placed.token?) :=
    inOrder_placed hcounts Position.one_le_col_origin hlexemes
  rw [htext]
  constructor
  · intro t ht
    rcases List.mem_append.1 ht with ht | ht
    · exact horder.upTo t ht
    · rw [List.mem_singleton.1 ht]
      exact Position.upTo_refl _
  · refine List.pairwise_append.2 ⟨horder.before, List.pairwise_singleton _ _, ?_⟩
    intro t ht t' ht'
    obtain ⟨x, hx, htoken⟩ := List.mem_filterMap.1 ht
    obtain ⟨hspan, hmeaning⟩ := Placed.span_of_token? htoken
    rw [hspan, List.mem_singleton.1 ht']
    exact last_before_of_mem hcounts Position.one_le_col_origin hlexemes hx hmeaning

/-- A clean scan reads the whole text. -/
theorem counts_of_clean {text : List Char} (hscan : (ofText? text).isSome = true)
    (hclean : (ofText text).faults = []) : Position.origin.Counts (Lexeme.runs text).flatten := by
  obtain ⟨u, v, hruns, -, hread, hwhole⟩ := exists_lexemes_ofText text
  rw [hruns, hwhole hclean, List.append_nil]
  exact hread hscan

theorem exists_of_placed_eq_append (h : placed p runs = xs ++ ys) :
    ∃ u v, runs = u ++ v ∧ xs = placed p u ∧ ys = placed (p.after u.flatten) v := by
  have hruns := congrArg (List.map Placed.run) h
  rw [map_run_placed, List.map_append] at hruns
  rw [hruns, placed_append] at h
  have hlength : (placed p (xs.map Placed.run)).length = xs.length := by
    have hmap := congrArg List.length (map_run_placed p (xs.map Placed.run))
    rwa [List.length_map, List.length_map] at hmap
  obtain ⟨hxs, hys⟩ := List.append_inj h hlength
  exact ⟨_, _, hruns, hxs.symm, hys.symm⟩

theorem start_of_head?_placed (h : (placed p runs).head? = some x) : x.start = p := by
  cases runs with
  | nil => cases h
  | cons run rest =>
    cases h
    rfl

/-- The last lexeme stands after all the others. -/
theorem exists_of_getLast?_placed (h : (placed p runs).getLast? = some x) :
    ∃ init, runs = init ++ [x.run] ∧ x.start = p.after init.flatten := by
  obtain ⟨before, hplaced⟩ := List.getLast?_eq_some_iff.1 h
  obtain ⟨init, last, rfl, -, hlast⟩ := exists_of_placed_eq_append hplaced
  have hrun := congrArg (List.map Placed.run) hlast
  rw [map_run_placed, List.map_singleton] at hrun
  rw [← hrun] at hlast ⊢
  exact ⟨init, rfl, congrArg Placed.start (List.cons.inj hlast).1⟩

/-- **Tokens next to each other come from a stretch** of lexemes, and what
delimits the tokens marks out the stretch. -/
theorem exists_stretch {text : List Char} {w : List Token} {s : Span}
    (hcounts : Position.origin.Counts (Lexeme.runs text).flatten)
    (hw : w <:+: (placed .origin (Lexeme.runs text)).filterMap Placed.token?)
    (hs : s.Delimits w) :
    ∃ u runs v, Lexeme.runs text = u ++ runs ++ v ∧
      (placed (Position.origin.after u.flatten) runs).filterMap Placed.token? = w ∧
      s.MarksOut u.flatten runs.flatten := by
  obtain ⟨a, b, ha, hb, rfl⟩ := hs
  obtain ⟨ys, x, y, ⟨before, after, hys⟩, hfilter, hhead, hx, hlast, hy⟩ :=
    exists_stretch_of_filterMap hw ha hb
  obtain ⟨most, v, hruns, hmost, -⟩ := exists_of_placed_eq_append hys.symm
  obtain ⟨u, runs, rfl, -, rfl⟩ := exists_of_placed_eq_append hmost.symm
  refine ⟨u, runs, v, hruns, hfilter, ?_⟩
  -- the stretch is `runs`, its first lexeme `x` and its last one `y`
  obtain ⟨init, rfl, hstart⟩ := exists_of_getLast?_placed hlast
  obtain ⟨hspanx, -⟩ := Placed.span_of_token? hx
  obtain ⟨hspany, hmeaning⟩ := Placed.span_of_token? hy
  have hmem : y.run ∈ Lexeme.runs text := by simp [hruns]
  have hlexeme := Lexeme.isLexeme_of_mem_runs hmem
  have hne := (Lexeme.isLexeme_iff.1 hlexeme).1
  have hplaced : y ∈ placed .origin (Lexeme.runs text) :=
    hys ▸ List.mem_append_left _ (List.mem_append_right _ (List.mem_of_getLast? hlast))
  have hcounted := counted_of_mem_placed hcounts Position.one_le_col_origin hplaced
  constructor
  · simp [hne]
  · show a.span.first = _
    rw [hspanx]
    exact start_of_head?_placed hhead
  · show b.span.last = _
    rw [hspany, hcounted.last_eq_after hlexeme hmeaning, hstart, List.flatten_concat,
      List.dropLast_append_of_ne_nil hne, Position.after_append, Position.after_append]

/-- Lexemes of a text without faults are, by themselves, a text without
faults, and the same tokens at other places. -/
theorem tokens_stretch {text : List Char} {u v : List (List Char)}
    (hclean : Lexeme.causes text = []) (h : Lexeme.runs text = u ++ runs ++ v) :
    Lexeme.causes runs.flatten = [] ∧
      (ofText runs.flatten).tokens.map Token.kind =
        ((placed p runs).filterMap Placed.token?).map Token.kind ++ [.endOfInput] := by
  have hruns := Lexeme.runs_flatten (h ▸ List.infix_append u runs v)
  have hcauses : Lexeme.causes runs.flatten = [] := by
    rw [Lexeme.causes, Lexeme.meanings, h] at hclean
    simp only [List.map_append, List.filterMap_append, List.append_eq_nil_iff] at hclean
    rw [Lexeme.causes, Lexeme.meanings, hruns]
    exact hclean.1.2
  refine ⟨hcauses, ?_⟩
  rw [map_kind_tokens hcauses, Lexeme.kinds, Lexeme.meanings, hruns, map_kind_filterMap,
    map_meaning_placed]

/-- The tokens of a text without faults, the end aside, are those that its
lexemes are. -/
theorem dropLast_tokens {text : List Char} (hclean : (ofText text).faults = []) :
    (ofText text).tokens.dropLast =
      (placed .origin (Lexeme.runs text)).filterMap Placed.token? := by
  obtain ⟨stop, htokens⟩ := exists_tokens_eq_placed ((faults_eq_nil_iff text).1 hclean)
  rw [htokens, List.dropLast_concat]

end Scan

namespace Expr

variable {limits : Limits} {text : List Char} {e m n : Expr} {cause : Cause}

/-! ## Nodes -/

/-- What a node was read from: tokens that its span delimits and that have
the node as their tree, whatever end of the text comes after them; and the
stretch of the text that its span marks out, which by itself has the same
tree, at other places. -/
structure ReadFrom (limits : Limits) (text : List Char) (n : Expr) : Prop where
  tokens : ∃ w, w <:+: (Scan.ofText text).tokens.dropLast ∧ n.span.Delimits w ∧
    ∀ t : Token, t.kind = .endOfInput → ofTokens limits (w ++ [t]) = .ok n
  stretch : ∃ u w v, text = u ++ w ++ v ∧ n.span.MarksOut u w ∧
    (Scan.ofText w).faults = [] ∧
    ∃ e, ofTokens limits (Scan.ofText w).tokens = .ok e ∧ e.unplaced = n.unplaced

/-- **A node stands for its stretch of the text.** -/
theorem Part.readFrom (hscan : (Scan.ofText? text).isSome = true)
    (hclean : (Scan.ofText text).faults = [])
    (htree : ofTokens limits (Scan.ofText text).tokens = .ok e) (hpart : Part n e) :
    ReadFrom limits text n := by
  obtain ⟨w, hw, hown⟩ := (derives_of_scan htree).exists_tokens_of_part hpart
  have hsublist := hw.sublist.trans (List.dropLast_sublist _)
  have hdelimits := hown.delimits ((Scan.inOrder_ofText hscan).sublist hsublist)
  have halone : ∀ t : Token, t.kind = .endOfInput → ofTokens limits (w ++ [t]) = .ok n := by
    intro t ht
    obtain ⟨all, tend, htokens, -, hend, hne⟩ :=
      Scan.exists_tokens_of_clean ((Scan.faults_eq_nil_iff text).1 hclean)
    rw [htokens] at htree
    rw [htokens, List.dropLast_concat] at hw
    exact ofTokens_alone htree hne hend hw hown ht
  refine ⟨⟨w, hw, hdelimits, halone⟩, ?_⟩
  rw [Scan.dropLast_tokens hclean] at hw
  obtain ⟨u, runs, v, hruns, rfl, hmarks⟩ :=
    Scan.exists_stretch (Scan.counts_of_clean hscan hclean) hw hdelimits
  obtain ⟨hcauses, hkinds⟩ :=
    Scan.tokens_stretch (p := Position.origin.after u.flatten)
      ((Scan.faults_eq_nil_iff text).1 hclean) hruns
  have htext : text = u.flatten ++ runs.flatten ++ v.flatten := by
    have hcut := Lexeme.isCut_iff.2 (rfl : _ = Lexeme.runs text)
    rw [← List.flatten_append, ← List.flatten_append, ← hruns, hcut.flatten_eq]
  refine ⟨u.flatten, runs.flatten, v.flatten, htext, hmarks,
    (Scan.faults_eq_nil_iff _).2 hcauses, ?_⟩
  refine exists_ofTokens_of_kinds (halone ⟨.endOfInput, .nowhere⟩ rfl) ?_
  rw [hkinds, List.map_append]
  rfl

/-- **A node lies inside** any node that it is part of. -/
theorem Part.inside (hscan : (Scan.ofText? text).isSome = true)
    (htree : ofTokens limits (Scan.ofText text).tokens = .ok e)
    (hm : Part m e) (hn : Part n m) : n.span.Inside m.span := by
  obtain ⟨w, hw, hderives⟩ := (derives_of_scan htree).exists_tokens_of_part hm
  obtain ⟨v, hv, hown⟩ := hderives.exists_tokens_of_part hn
  have horder := (Scan.inOrder_ofText hscan).sublist (hw.sublist.trans (List.dropLast_sublist _))
  exact horder.inside hv.subset (hderives.delimits horder)
    (hown.delimits (horder.sublist hv.sublist))

/-! ## Nodes without a value -/

/-- The node itself has no value, for this cause: a number that is too large,
or an operation that fails on the values of its operands. -/
inductive Fails : Expr → Cause → Prop
  | literal {s : Span} {x : Double} {cause : Cause} (h : literalValue x = .error cause) :
      Fails (.literal s x) cause
  | operation {s : Span} {op : BinaryOp} {l r : Expr} {x y : Double} {cause : Cause}
      (left : value l = .ok x) (right : value r = .ok y) (h : op.apply x y = .error cause) :
      Fails (.binary s op l r) cause

/-- **A fault points at a node**, which itself has no value. -/
theorem exists_fails {fault : Fault} (h : value e = .error fault) :
    ∃ n, Part n e ∧ n.Fails fault.cause ∧ n.span = fault.span := by
  induction e with
  | literal s x =>
    rw [value] at h
    cases hx : literalValue x with
    | ok y =>
      rw [hx] at h
      cases h
    | error cause =>
      rw [hx] at h
      cases h
      exact ⟨_, .self, .literal hx, rfl⟩
  | negate s operand ih =>
    rw [value] at h
    cases hvalue : value operand with
    | ok x =>
      rw [hvalue] at h
      cases h
    | error fault' =>
      rw [hvalue] at h
      cases h
      obtain ⟨n, part, hfails, hspan⟩ := ih hvalue
      exact ⟨n, .operand s part, hfails, hspan⟩
  | group s inner ih =>
    obtain ⟨n, part, hfails, hspan⟩ := ih h
    exact ⟨n, .inner s part, hfails, hspan⟩
  | binary s op l r ihl ihr =>
    rcases value_binary_eq_error h with hl | hr | ⟨x, y, cause, hl, hr, happly, rfl⟩
    · obtain ⟨n, part, hfails, hspan⟩ := ihl hl
      exact ⟨n, .left s op r part, hfails, hspan⟩
    · obtain ⟨n, part, hfails, hspan⟩ := ihr hr
      exact ⟨n, .right s op l part, hfails, hspan⟩
    · exact ⟨_, .self, .operation hl hr happly, rfl⟩

theorem value_eq_ok_of_unplaced {x : Double} (h : e.unplaced = n.unplaced) (hn : value n = .ok x) :
    value e = .ok x := by
  have hsame : unplacedBy id (value e) = unplacedBy id (value n) := by
    rw [← value_unplaced, ← value_unplaced, h]
  rcases cases_of_unplacedBy_eq hsame with ⟨y, z, he, hz, heq⟩ | ⟨_, _, -, hnone, -⟩
  · rw [hn] at hz
    cases hz
    exact he.trans (congrArg Except.ok heq)
  · rw [hn] at hnone
    cases hnone

/-- Whether a node itself has no value does not depend on its place. -/
theorem Fails.of_unplaced (h : n.Fails cause) (heq : e.unplaced = n.unplaced) : e.Fails cause := by
  cases h with
  | literal h => cases e with
    | literal s x =>
      cases heq
      exact .literal h
    | _ => cases heq
  | operation left right h => cases e with
    | binary s op l r =>
      simp only [unplaced, binary.injEq, true_and] at heq
      obtain ⟨rfl, hl, hr⟩ := heq
      exact .operation (value_eq_ok_of_unplaced hl left) (value_eq_ok_of_unplaced hr right) h
    | _ => cases heq

/-- What is said to be wrong with a text that has a tree, if not that the
steps ran out, is why the tree has no value. -/
theorem exists_fault_of_evaluate {text : String} {d : Diagnostic}
    (hclean : (Scan.ofText text.toList).faults = [])
    (htree : ofTokens limits (Scan.ofText text.toList).tokens = .ok e)
    (h : evaluate text limits = .error d)
    (hkind : d.kind = .divisionByZero ∨ d.kind = .numericOverflow) :
    ∃ fault, value e = .error fault ∧ d = fault.diagnose (.ofText text) := by
  cases hcalculate : calculate limits text.toList with
  | ok v =>
    rw [evaluate_of_ok hcalculate] at h
    cases h
  | error faults =>
    rw [evaluate_of_error hcalculate] at h
    cases h
    rcases calculate_eq_error hcalculate with hfaults | ⟨fault, rfl, hnone | ⟨e', htree', heval⟩⟩
    · rw [hclean] at hfaults
      cases hfaults
    · rw [htree] at hnone
      cases hnone
    · rw [htree] at htree'
      cases htree'
      refine ⟨fault, ?_, rfl⟩
      rw [eval_spends _ e 0] at heval
      rcases hpay : Metered.pay (stepBudget limits text.toList) 0 (visits e) with ⟨_ | span, s'⟩
      · rw [hpay] at heval
        exact heval
      · rw [hpay] at heval
        cases heval
        rcases hkind with hkind | hkind <;> cases hkind

end Expr

end Abacus
