import Abacus.Proofs.Lines
import Abacus.Proofs.Recovery

/-!
# Placement

Where the tokens and the faults of a scan stand. A lexeme other than white
space does not leave its line, so that its span is where the line, looked up
in the source, reads as the lexeme. The spans come in the order of the text
and do not meet.
-/

namespace Abacus

/-! ## Positions in order -/

namespace Position

variable {p q r : Position}

/-- One position comes before another in reading order. -/
def Before (p q : Position) : Prop :=
  p.line.toNat < q.line.toNat ∨ (p.line.toNat = q.line.toNat ∧ p.col.toNat < q.col.toNat)

theorem upTo_refl (p : Position) : p.upTo p = true :=
  upTo_iff.2 (.inr ⟨rfl, Nat.le_refl _⟩)

theorem upTo_trans (hpq : p.upTo q = true) (hqr : q.upTo r = true) : p.upTo r = true := by
  rw [upTo_iff] at *
  omega

theorem Before.upTo (hpq : p.Before q) : p.upTo q = true := by
  rw [upTo_iff]
  rw [Before] at hpq
  omega

theorem Before.trans_upTo (hpq : p.Before q) (hqr : q.upTo r = true) : p.Before r := by
  rw [upTo_iff] at hqr
  rw [Before] at *
  omega

theorem upTo_step {c : Char} (h : p.step? c = some (p.step c)) : p.upTo (p.step c) = true := by
  rw [upTo_iff]
  by_cases hc : c = '\n'
  · subst hc
    rw [step_lineFeed]
    exact .inl (by rw [toNat_succ (step?_lineFeed.1 h)]; omega)
  · rw [step_of_ne hc]
    exact .inr ⟨rfl, by rw [toNat_succ ((step?_of_ne hc).1 h)]; omega⟩

/-- A cursor moves on in reading order, as long as it counts. -/
theorem Counts.upTo_after {text : List Char} (h : Counts p text) :
    p.upTo (p.after text) = true := by
  induction text generalizing p with
  | nil => exact upTo_refl p
  | cons c cs ih =>
    obtain ⟨hstep, hrest⟩ := counts_cons.1 h
    exact upTo_trans (upTo_step hstep) (ih hrest)

end Position

/-- The span holds a position. -/
def Span.Covers (s : Span) (p : Position) : Prop :=
  s.first.upTo p = true ∧ p.upTo s.last = true

theorem Span.not_covers_of_before {s t : Span} (h : s.last.Before t.first) {p : Position}
    (hs : s.Covers p) : ¬ t.Covers p := by
  intro ht
  have hbefore := h.trans_upTo ht.1
  have hlast := hs.2
  rw [Position.upTo_iff] at hlast
  rw [Position.Before] at hbefore
  omega

namespace Scan

variable {x y : Placed} {xs : List Placed} {p : Position} {runs : List (List Char)} {room : Nat}

/-! ## Lexemes in their places -/

theorem map_run_placed (p : Position) (runs : List (List Char)) :
    (placed p runs).map Placed.run = runs := by
  induction runs generalizing p with
  | nil => rfl
  | cons run rest ih => rw [placed, List.map_cons, ih]

/-- A lexeme stands after those before it. -/
theorem exists_of_mem_placed (h : x ∈ placed p runs) :
    ∃ u v, runs = u ++ x.run :: v ∧ x.start = p.after u.flatten := by
  induction runs generalizing p with
  | nil => cases h
  | cons run rest ih =>
    rcases List.mem_cons.1 h with rfl | h
    · exact ⟨[], rest, rfl, rfl⟩
    · obtain ⟨u, v, rfl, hstart⟩ := ih h
      refine ⟨run :: u, v, rfl, ?_⟩
      rw [hstart, List.flatten_cons, Position.after_append]

/-- The counters get through a lexeme from where it begins. -/
structure Placed.Counted (x : Placed) : Prop where
  counts : x.start.Counts x.run
  one_le_col : 1 ≤ x.start.col.toNat

/-- Where a text is counted so is each of its lexemes. -/
theorem counted_of_mem_placed (hcounts : p.Counts runs.flatten) (hp : 1 ≤ p.col.toNat)
    (h : x ∈ placed p runs) : x.Counted := by
  obtain ⟨u, v, rfl, hstart⟩ := exists_of_mem_placed h
  rw [List.flatten_append, List.flatten_cons, Position.counts_append, Position.counts_append,
    ← hstart] at hcounts
  exact ⟨hcounts.2.1, hstart ▸ hcounts.1.one_le_col hp⟩

/-- A lexeme of a text other than white space, to the end of which the
counters get from the beginning of the text. -/
structure Placed.IsReached (text : List Char) (x : Placed) : Prop where
  not_blank : x.meaning ≠ .blank
  counts : ∃ u v, Lexeme.runs text = u ++ v ∧ Position.origin.Counts u.flatten ∧
    x ∈ placed .origin u

theorem Placed.IsReached.isLexeme {text : List Char} (hx : x.IsReached text) :
    Lexeme.IsLexeme x.run := by
  obtain ⟨-, runs, rest, hruns, -, hx⟩ := hx
  obtain ⟨u, v, rfl, -⟩ := exists_of_mem_placed hx
  have hmem : x.run ∈ Lexeme.runs text := by simp [hruns]
  exact Lexeme.isLexeme_of_mem_runs hmem

theorem Placed.IsReached.counted {text : List Char} (hx : x.IsReached text) : x.Counted := by
  obtain ⟨-, runs, rest, -, hcounts, hx⟩ := hx
  exact counted_of_mem_placed hcounts Position.one_le_col_origin hx

/-! ## Spans -/

/-- The span stays in one line of the source, and the line has the
characters of the lexeme there. -/
structure Placed.StandsIn (source : Source) (x : Placed) : Prop where
  one_line : x.span.first.line = x.span.last.line
  one_le_col : 1 ≤ x.span.first.col.toNat
  col_le_col : x.span.first.col.toNat ≤ x.span.last.col.toNat
  reads : ∃ line, source.line? x.span.first.line.toNat = some line ∧
    (line.toList.take x.span.last.col.toNat).drop (x.span.first.col.toNat - 1) = x.run

theorem Placed.length_pos (h : Lexeme.IsLexeme x.run) : 0 < x.run.length :=
  List.length_pos_iff.2 (Lexeme.isLexeme_iff.1 h).1

/-- A lexeme that is not white space does not leave its line. -/
theorem Placed.lineFeed_not_mem (h : Lexeme.IsLexeme x.run) (hmeaning : x.meaning ≠ .blank) :
    '\n' ∉ x.run := by
  intro hmem
  have hblank := h.not_blank hmeaning hmem
  rw [Text.isBlank_lineFeed] at hblank
  cases hblank

/-- A carriage return does not end it either. -/
theorem Placed.getLast?_ne_return (h : Lexeme.IsLexeme x.run) (hmeaning : x.meaning ≠ .blank)
    {c : Char} (hc : x.run.getLast? = some c) : c ≠ '\r' := by
  rintro rfl
  have hblank := h.not_blank hmeaning (List.mem_of_getLast? hc)
  exact absurd hblank (by decide)

/-- **Where a lexeme ends**: in the line in which it begins, as many columns
on as it has more characters than one. -/
theorem Placed.Counted.last_span (hcounted : x.Counted) (h : Lexeme.IsLexeme x.run)
    (hmeaning : x.meaning ≠ .blank) :
    x.span.last.line = x.start.line ∧
      x.span.last.col.toNat = x.start.col.toNat + x.run.length - 1 := by
  have hpos := Placed.length_pos h
  have hfeed := Placed.lineFeed_not_mem h hmeaning
  have hfirst := hcounted.one_le_col
  refine ⟨Position.line_after hfeed _, ?_⟩
  show (max (monus (x.start.after x.run).col 1) 1).toNat = _
  rw [toNat_max, toNat_monus, hcounted.counts.toNat_col_after hfeed, UInt32.toNat_one]
  omega

/-- **A span reads as its lexeme** in the line that the source looks up. -/
theorem Placed.IsReached.standsIn {source : Source} (hx : x.IsReached source.text) :
    x.StandsIn source := by
  have hcounted := hx.counted
  have hlexeme := hx.isLexeme
  obtain ⟨hmeaning, runs, rest, hruns, hcounts, hx⟩ := hx
  obtain ⟨u, v, rfl, hstart⟩ := exists_of_mem_placed hx
  have hcut := Lexeme.isCut_iff.2 (rfl : _ = Lexeme.runs source.text)
  have htext : source.text = u.flatten ++ (x.run ++ (v ++ rest).flatten) := by
    rw [← hcut.flatten_eq, hruns]
    simp only [List.flatten_append, List.flatten_cons, List.append_assoc]
  rw [List.flatten_append, Position.counts_append] at hcounts
  obtain ⟨before, hfirst, hcol, hline⟩ := hcounts.1.exists_line_at (x.run ++ (v ++ rest).flatten)
  have hfeed := Placed.lineFeed_not_mem hlexeme hmeaning
  rw [Text.takeWhile_append_of_not_mem hfeed, ← htext] at hline
  have hpos := Placed.length_pos hlexeme
  obtain ⟨hsame, hlast⟩ := hcounted.last_span hlexeme hmeaning
  rw [← hstart] at hfirst hcol
  have htrim : Text.trimReturns (before ++ (x.run ++ (v ++ rest).flatten.takeWhile (· != '\n'))) =
      (before ++ x.run) ++ Text.trimReturns ((v ++ rest).flatten.takeWhile (· != '\n')) := by
    rw [← List.append_assoc, Text.trimReturns_append]
    intro c hc
    rw [List.getLast?_append_of_ne_nil _ (List.length_pos_iff.1 hpos)] at hc
    exact Placed.getLast?_ne_return hlexeme hmeaning hc
  have hwidth : x.span.last.col.toNat = (before ++ x.run).length := by
    rw [hlast, hcol, List.length_append]
    omega
  have hstarts : x.span.first.col.toNat = before.length + 1 := hcol
  have hfound : source.line? x.start.line.toNat = some (String.ofList
      ((before ++ x.run) ++ Text.trimReturns ((v ++ rest).flatten.takeWhile (· != '\n')))) := by
    rw [hfirst, Source.line?_succ, hline, Option.map_some, htrim]
  refine ⟨hsame.symm, by omega, ?_, _, hfound, ?_⟩
  · rw [hwidth, hstarts, List.length_append]
    omega
  · rw [hwidth, hstarts, String.toList_ofList, List.take_left' rfl]
    exact List.drop_left' rfl

/-- The lines before the one in which a lexeme stands are not too long to be
counted. -/
theorem Placed.IsReached.length_lt {source : Source} {n : Nat} {line : String}
    (hx : x.IsReached source.text) (hn : n < x.span.first.line.toNat)
    (hline : source.line? n = some line) : line.length < UInt32.size := by
  obtain ⟨-, runs, rest, hruns, hcounts, hx⟩ := hx
  obtain ⟨u, v, rfl, hstart⟩ := exists_of_mem_placed hx
  have htext : source.text = u.flatten ++ (x.run :: (v ++ rest)).flatten := by
    have hcut := Lexeme.isCut_iff.2 (rfl : _ = Lexeme.runs source.text)
    rw [← hcut.flatten_eq, hruns]
    simp only [List.flatten_append, List.flatten_cons, List.append_assoc]
  rw [List.flatten_append, Position.counts_append] at hcounts
  obtain ⟨-, hfirst, -, -⟩ := hcounts.1.exists_line_at []
  rw [← hstart] at hfirst
  have hfirst' : x.span.first.line.toNat = _ := hfirst
  cases n with
  | zero => cases hline
  | succ i =>
    rw [Source.line?_succ, htext] at hline
    obtain ⟨whole, hwhole, rfl⟩ := Option.map_eq_some_iff.1 hline
    have hlt := hcounts.1.length_lt_of_getElem? (by omega) hwhole
    rw [String.length_ofList]
    exact (Text.trimReturns_sublist whole).length_le.trans_lt hlt

/-- A lexeme that is not white space ends before what comes after it. -/
theorem Placed.Counted.last_before (hcounted : x.Counted) (h : Lexeme.IsLexeme x.run)
    (hmeaning : x.meaning ≠ .blank) : x.span.last.Before (x.start.after x.run) := by
  have hpos := Placed.length_pos h
  have hfirst := hcounted.one_le_col
  have hfeed := Placed.lineFeed_not_mem h hmeaning
  obtain ⟨hsame, hlast⟩ := hcounted.last_span h hmeaning
  refine .inr ⟨?_, ?_⟩
  · rw [hsame, Position.line_after hfeed]
  · rw [hlast, hcounted.counts.toNat_col_after hfeed]
    omega

/-- **Spans do not meet**: each ends before the next begins. -/
theorem pairwise_placed (hcounts : p.Counts runs.flatten) (hp : 1 ≤ p.col.toNat)
    (hruns : ∀ run ∈ runs, Lexeme.IsLexeme run) :
    (placed p runs).Pairwise fun x y => x.meaning ≠ .blank → x.span.last.Before y.span.first := by
  induction runs generalizing p with
  | nil => exact .nil
  | cons run rest ih =>
    rw [List.forall_mem_cons] at hruns
    have hcounted : Placed.Counted ⟨run, p⟩ :=
      counted_of_mem_placed hcounts hp List.mem_cons_self
    rw [List.flatten_cons, Position.counts_append] at hcounts
    obtain ⟨hrun, hrest⟩ := hcounts
    refine List.pairwise_cons.2
      ⟨fun y hy hmeaning => ?_, ih hrest (hrun.one_le_col hp) hruns.2⟩
    obtain ⟨u, v, rfl, hstart⟩ := exists_of_mem_placed hy
    have hends := hcounted.last_before hruns.1 hmeaning
    rw [List.flatten_append, Position.counts_append] at hrest
    show (spanOf p run).last.Before y.start
    rw [hstart]
    exact hends.trans_upTo hrest.1.upTo_after

/-- A position is in one span only. -/
theorem eq_of_covers (hpairwise : xs.Pairwise fun x y => x.span.last.Before y.span.first)
    (hx : x ∈ xs) (hy : y ∈ xs) (hpx : x.span.Covers p) (hpy : y.span.Covers p) : x = y := by
  -- of two different lexemes one comes first, but it is not known which
  have hforth : xs.Pairwise fun x y => x.span.Covers p → y.span.Covers p → x = y :=
    hpairwise.imp fun h hpx hpy => absurd hpy (Span.not_covers_of_before h hpx)
  have hback : xs.Pairwise (flip fun x y => x.span.Covers p → y.span.Covers p → x = y) :=
    hforth.imp fun h hpy hpx => (h hpx hpy).symm
  exact List.Pairwise.forall_of_forall_of_flip (fun _ _ _ _ => rfl) hforth hback hx hy hpx hpy

/-- A character of a text stands in one of its lexemes. -/
theorem exists_run_of_flatten {u v : List Char} {c : Char} (h : runs.flatten = u ++ c :: v) :
    ∃ before run after a b, runs = before ++ run :: after ∧ run = a ++ c :: b ∧
      u = before.flatten ++ a := by
  induction runs generalizing u with
  | nil => simp at h
  | cons run rest ih =>
    rw [List.flatten_cons] at h
    rcases List.append_eq_append_iff.1 h with ⟨u', rfl, hrest⟩ | ⟨b, hrun, hrest⟩
    · obtain ⟨before, run', after, a, b, rfl, hrun, rfl⟩ := ih hrest
      exact ⟨run :: before, run', after, a, b, rfl, hrun, by simp⟩
    · cases b with
      | nil =>
        obtain ⟨before, run', after, a, b, rfl, hrun', hu⟩ := ih (u := []) hrest.symm
        refine ⟨run :: before, run', after, a, b, rfl, hrun', ?_⟩
        rw [List.append_nil] at hrun
        rw [List.flatten_cons, List.append_assoc, ← hu, List.append_nil, hrun]
      | cons d b =>
        obtain ⟨rfl, -⟩ := List.cons.inj hrest
        exact ⟨[], run, rest, u, b, rfl, hrun, rfl⟩

/-- A character that is not white space is covered by the lexeme that it
stands in. -/
theorem exists_covers {text u v : List Char} {c : Char} (hcounts : Position.origin.Counts text)
    (htext : text = u ++ c :: v) (hc : Text.isBlank c = false) :
    ∃ x ∈ placed .origin (Lexeme.runs text), x.meaning ≠ .blank ∧
      x.span.Covers (Position.origin.after u) := by
  have hcut := Lexeme.isCut_iff.2 (rfl : _ = Lexeme.runs text)
  obtain ⟨before, run, after, a, b, hruns, hrun, rfl⟩ :=
    exists_run_of_flatten (hcut.flatten_eq.trans htext)
  have hlexeme : Lexeme.IsLexeme run := hcut.lexemes run (by simp [hruns])
  have hmeaning : Lexeme.ofRun run ≠ .blank := by
    rw [Ne, Lexeme.ofRun_eq_blank_iff hlexeme]
    intro hblank
    rw [hblank c (by simp [hrun])] at hc
    cases hc
  have hfeed : '\n' ∉ a := by
    intro hmem
    have hnot := Placed.lineFeed_not_mem (x := ⟨run, .origin⟩) hlexeme hmeaning
    exact hnot (by simp [hrun, hmem])
  have hmem : ⟨run, Position.origin.after before.flatten⟩ ∈ placed .origin (Lexeme.runs text) := by
    rw [hruns, placed_append]
    exact List.mem_append_right _ List.mem_cons_self
  refine ⟨_, hmem, hmeaning, ?_⟩
  have hall : Position.origin.Counts (Lexeme.runs text).flatten := by rwa [hcut.flatten_eq]
  have hcounted := counted_of_mem_placed hall Position.one_le_col_origin hmem
  obtain ⟨hsame, hlast⟩ := hcounted.last_span hlexeme hmeaning
  have hbefore := hcounted.counts.of_prefix ⟨c :: b, hrun.symm⟩
  have hcol := hbefore.toNat_col_after hfeed
  have hline := Position.line_after hfeed (Position.origin.after before.flatten)
  have hlength : run.length = a.length + (b.length + 1) := by
    rw [hrun, List.length_append, List.length_cons]
  rw [Span.Covers, Position.upTo_iff, Position.upTo_iff, Position.after_append, hline, hcol, hsame,
    hlast]
  dsimp only
  exact ⟨.inr ⟨rfl, Nat.le_add_right ..⟩, .inr ⟨rfl, by omega⟩⟩

/-! ## The text -/

/-- What is taken is a token or a fault, as the lexeme means. -/
def Placed.IsFound (x : Placed) : Prop :=
  (∃ kind, Lexeme.Means x.run (.token kind) ∧ x.token? = some ⟨kind, x.span⟩ ∧ x.fault? = none) ∨
  (∃ cause, Lexeme.Means x.run (.bad cause) ∧ x.token? = none ∧ x.fault? = some ⟨cause, x.span⟩)

theorem Placed.isFound (h : Lexeme.IsLexeme x.run) (hmeaning : x.meaning ≠ .blank) :
    x.IsFound := by
  cases hx : x.meaning with
  | blank => exact absurd hx hmeaning
  | token kind => exact .inl ⟨kind, (Lexeme.means_iff h).2 hx, Placed.of_token hx⟩
  | bad cause => exact .inr ⟨cause, (Lexeme.means_iff h).2 hx, Placed.of_bad hx⟩

/-- **The tokens and the faults of a scan stand in the text**, if the
counters can tell all its lines and columns. They are lexemes of its cut, in
order, each a token or a fault. The span of each reads as the lexeme in its
line, and ends before the next begins. Without twenty faults every character
other than white space is in exactly one of the spans, and the end of the
text stands one column past its last line. -/
theorem ofText_placed {source : Source} (hfits : Text.Fits source.text) :
    ∃ (items : List Placed) (stop : Position),
      ofText source.text =
        ⟨items.filterMap Placed.token? ++ [⟨.endOfInput, .point stop⟩],
          items.filterMap Placed.fault?⟩ ∧
      (∀ runs, Lexeme.IsCut source.text runs → (items.map Placed.run).Sublist runs) ∧
      (∀ x ∈ items, x.IsFound ∧ x.StandsIn source) ∧
      (items.Pairwise fun x y => x.span.last.Before y.span.first) ∧
      ((ofText source.text).faults.length < 20 →
        (∀ u c v, source.text = u ++ c :: v → Text.isBlank c = false →
          ∃! x, x ∈ items ∧ x.span.Covers (Position.origin.after u)) ∧
        ∃ last, (Text.lines source.text).getLast? = some last ∧
          stop.line.toNat = source.lineCount ∧ stop.col.toNat = last.length + 1) := by
  have hcounts := Position.counts_origin_iff.2 hfits
  have hcut := Lexeme.isCut_iff.2 (rfl : _ = Lexeme.runs source.text)
  obtain ⟨stop, hscan, hstop⟩ := collect_eq_taken maxFaults .origin (Lexeme.runs source.text)
  have hall : Position.origin.Counts (Lexeme.runs source.text).flatten := by
    rwa [hcut.flatten_eq]
  have htaken := taken_sublist maxFaults (placed .origin (Lexeme.runs source.text))
  have hsublist := htaken.trans List.filter_sublist
  have hmeaning : ∀ x ∈ taken maxFaults (placed .origin (Lexeme.runs source.text)),
      x.meaning ≠ .blank := by
    intro x hx
    simpa using (List.mem_filter.1 (htaken.subset hx)).2
  have hpairwise : (taken maxFaults (placed .origin (Lexeme.runs source.text))).Pairwise
      fun x y => x.span.last.Before y.span.first :=
    ((pairwise_placed hall Position.one_le_col_origin hcut.lexemes).sublist hsublist).imp_of_mem
      fun hx _ h => h (hmeaning _ hx)
  refine ⟨_, stop, hscan, ?_, ?_, hpairwise, ?_⟩
  · intro runs hruns
    have hmap := hsublist.map Placed.run
    rw [map_run_placed] at hmap
    rwa [Lexeme.isCut_iff.1 hruns]
  · intro x hx
    have hplaced := hsublist.subset hx
    obtain ⟨u, v, hruns, -⟩ := exists_of_mem_placed hplaced
    have hlexeme := hcut.lexemes x.run (by simp [hruns])
    exact ⟨x.isFound hlexeme (hmeaning x hx),
      Placed.IsReached.standsIn
        ⟨hmeaning x hx, _, [], (List.append_nil _).symm, hall, hplaced⟩⟩
  · intro hfew
    have hroom : ((placed .origin (Lexeme.runs source.text)).filterMap Placed.fault?).length <
        maxFaults := by
      rw [faults_ofText, List.length_take, maxFaults] at hfew
      rw [maxFaults]
      omega
    constructor
    · intro u c v htext hc
      obtain ⟨x, hx, hx', hcovers⟩ := exists_covers hcounts htext hc
      refine ⟨x, ⟨?_, hcovers⟩, ?_⟩
      · rw [taken_eq_filter hroom, List.mem_filter]
        exact ⟨hx, by simpa using hx'⟩
      · intro y hy
        refine eq_of_covers hpairwise hy.1 ?_ hy.2 hcovers
        rw [taken_eq_filter hroom, List.mem_filter]
        exact ⟨hx, by simpa using hx'⟩
    · obtain ⟨last, hstopLine, hstopCol, hline⟩ := hcounts.exists_line_at []
      rw [List.append_nil] at hline
      refine ⟨last, ?_, ?_, ?_⟩
      · rw [List.getLast?_eq_getElem?, Text.length_lines, Nat.add_sub_cancel, hline,
          List.takeWhile_nil, List.append_nil]
      · rw [hstop hroom, hcut.flatten_eq, hstopLine, Source.lineCount_eq, Text.length_lines]
      · rw [hstop hroom, hcut.flatten_eq, hstopCol]

/-- The carriage returns belong to the first line, and the fault begins the
second one. -/
theorem ofText_placed_returns :
    let source := Source.ofText "1 +\r\r\n$2"
    Text.Fits source.text ∧
      (ofText source.text).faults.map Fault.span = [.point ⟨2, 1⟩] ∧
      ∃ (items : List Placed) (stop : Position),
        (ofText source.text).tokens =
          items.filterMap Placed.token? ++ [⟨.endOfInput, .point stop⟩] ∧
        (∀ x ∈ items, x.IsFound ∧ x.StandsIn source) ∧
        (items.Pairwise fun x y => x.span.last.Before y.span.first) ∧
        stop.line.toNat = 2 ∧ stop.col.toNat = 3 := by
  intro source
  have hfits : Text.Fits source.text := ⟨by decide, by decide⟩
  have hfaults : (ofText source.text).faults.map Fault.span = [.point ⟨2, 1⟩] := by decide +kernel
  have hfew : (ofText source.text).faults.length < 20 := by decide +kernel
  obtain ⟨items, stop, hscan, -, hfound, hpairwise, hwhole⟩ := ofText_placed hfits
  obtain ⟨-, last, hlast, hline, hcol⟩ := hwhole hfew
  have htwo : source.lineCount = 2 := by decide +kernel
  obtain rfl : ['$', '2'] = last := Option.some.inj hlast
  exact ⟨hfits, hfaults, items, stop, congrArg tokens hscan, hfound, hpairwise, hline.trans htwo,
    hcol⟩

end Scan

end Abacus
