import Abacus.Proofs.Lexemes
import Abacus.Proofs.Lines
import Abacus.Proofs.TokenStream
import Mathlib.Data.List.Induction

/-!
# Counters

Lines and columns are counted in words, so a text can be too long for them.
A program whose arithmetic is checked stops where a counter would pass its
last value; one whose arithmetic is not checked goes on at zero, and from
there on its positions are those of other characters. The positions of the
checked cursor (`step?`, `after?`) are therefore the ones that mean anything,
and where it has one the other cursor has the same.

`Counts p u` says that the cursor gets from `p` through the text `u`. For a
whole text this is a bound on its lines and on the characters of each of them
(`counts_origin_iff`). A checked scan needs it only for what it reads: it may
end early, after as many faults as there is room for.
-/

namespace Abacus

/-- The value of a counter after its next step, unless it is at its last. -/
def next? (n : UInt32) : Option UInt32 :=
  if n.toNat + 1 < UInt32.size then some (n + 1) else none

theorem toNat_succ {n : UInt32} (h : n.toNat + 1 < UInt32.size) : (n + 1).toNat = n.toNat + 1 := by
  rw [UInt32.toNat_add]
  exact Nat.mod_eq_of_lt h

namespace Position

variable {p q : Position} {c : Char} {u v text : List Char}

/-! ## The checked cursor -/

/-- The position after one character by checked counters. -/
def step? (p : Position) (c : Char) : Option Position :=
  if c = '\n' then (next? p.line).map fun line => ⟨line, 1⟩
  else (next? p.col).map fun col => ⟨p.line, col⟩

/-- The position after a stretch of text by checked counters. -/
def after? (p : Position) (text : List Char) : Option Position :=
  text.foldlM step? p

/-- A cursor gets from a position through a stretch of text, and no counter
passes its last value. -/
def Counts (p : Position) (text : List Char) : Prop :=
  p.after? text = some (p.after text)

theorem after?_cons : p.after? (c :: u) = (p.step? c).bind fun q => q.after? u :=
  rfl

theorem eq_step_of_step? (h : p.step? c = some q) : q = p.step c := by
  unfold step? next? at h
  unfold step
  split at h <;> split at h <;> cases h <;> simp [*]

theorem eq_after_of_after? (h : p.after? u = some q) : q = p.after u := by
  induction u generalizing p with
  | nil => exact (Option.some.inj h).symm
  | cons c cs ih =>
    rw [after?_cons] at h
    obtain ⟨r, hr, hq⟩ := Option.bind_eq_some_iff.1 h
    rw [ih hq, eq_step_of_step? hr]
    rfl

@[simp] theorem counts_nil (p : Position) : Counts p [] := rfl

theorem counts_cons : Counts p (c :: u) ↔ p.step? c = some (p.step c) ∧ Counts (p.step c) u := by
  cases hstep : p.step? c with
  | none => simp [Counts, after?_cons, hstep]
  | some q =>
    obtain rfl := eq_step_of_step? hstep
    simp [Counts, after?_cons, hstep, after]

theorem counts_append : Counts p (u ++ v) ↔ Counts p u ∧ Counts (p.after u) v := by
  induction u generalizing p with
  | nil => simp [after]
  | cons c cs ih => rw [List.cons_append, counts_cons, counts_cons, ih, and_assoc]; rfl

/-- What is counted in the whole is counted in the parts. -/
theorem Counts.of_prefix (h : Counts p text) (hu : u <+: text) : Counts p u := by
  obtain ⟨v, rfl⟩ := hu
  exact (counts_append.1 h).1

/-! ## One character -/

theorem step?_lineFeed : p.step? '\n' = some (p.step '\n') ↔ p.line.toNat + 1 < UInt32.size := by
  unfold step? step next?
  by_cases h : p.line.toNat + 1 < UInt32.size <;> simp [h]

theorem step?_of_ne (hc : c ≠ '\n') :
    p.step? c = some (p.step c) ↔ p.col.toNat + 1 < UInt32.size := by
  unfold step? step next?
  by_cases h : p.col.toNat + 1 < UInt32.size <;> simp [h, hc]

theorem step_lineFeed (p : Position) : p.step '\n' = ⟨p.line + 1, 1⟩ := if_pos rfl

theorem step_of_ne (hc : c ≠ '\n') : p.step c = ⟨p.line, p.col + 1⟩ := if_neg hc

theorem after_concat (p : Position) (u : List Char) (c : Char) :
    p.after (u ++ [c]) = (p.after u).step c :=
  after_append p u [c]

/-! ## One line -/

theorem line_after (h : '\n' ∉ u) (p : Position) : (p.after u).line = p.line := by
  induction u generalizing p with
  | nil => rfl
  | cons c cs ih =>
    obtain ⟨hc, hcs⟩ := not_or.1 (mt List.mem_cons.2 h)
    exact (ih hcs (p.step c)).trans (by rw [step_of_ne (Ne.symm hc)])

/-- Within a line the column counts the characters. -/
theorem Counts.toNat_col_after (hcounts : Counts p u) (h : '\n' ∉ u) :
    (p.after u).col.toNat = p.col.toNat + u.length := by
  induction u generalizing p with
  | nil => rfl
  | cons c cs ih =>
    obtain ⟨hc, hcs⟩ := not_or.1 (mt List.mem_cons.2 h)
    obtain ⟨hstep, hrest⟩ := counts_cons.1 hcounts
    have hlt := (step?_of_ne (Ne.symm hc)).1 hstep
    have hcol : (p.step c).col.toNat = p.col.toNat + 1 := by
      rw [step_of_ne (Ne.symm hc)]
      exact toNat_succ hlt
    have hafter := ih hrest hcs
    rw [hcol] at hafter
    rw [List.length_cons, Nat.add_comm cs.length, ← Nat.add_assoc]
    exact hafter

theorem one_le_col_origin : 1 ≤ origin.col.toNat :=
  Nat.le_refl 1

/-- No column is before the first. -/
theorem Counts.one_le_col (h : Counts p u) (hp : 1 ≤ p.col.toNat) :
    1 ≤ (p.after u).col.toNat := by
  induction u generalizing p with
  | nil => exact hp
  | cons c cs ih =>
    obtain ⟨hstep, hrest⟩ := counts_cons.1 h
    refine ih hrest ?_
    by_cases hc : c = '\n'
    · rw [hc, step_lineFeed]
      exact Nat.le_refl 1
    · have hnext := toNat_succ ((step?_of_ne hc).1 hstep)
      rw [step_of_ne hc]
      show 1 ≤ (p.col + 1).toNat
      omega

/-! ## The lines of a text -/

/-- **A position finds its line** and its column in it: what stands before
it in the line is as long as the column tells. -/
theorem Counts.exists_line_at (h : Counts .origin u) (v : List Char) :
    ∃ before, (origin.after u).line.toNat = u.count '\n' + 1 ∧
      (origin.after u).col.toNat = before.length + 1 ∧
      (Text.lines (u ++ v))[u.count '\n']? = some (before ++ v.takeWhile (· != '\n')) := by
  induction u using List.reverseRec generalizing v with
  | nil => exact ⟨[], rfl, rfl, Text.head?_lines v⟩
  | append_singleton u c ih =>
    obtain ⟨hu, hc⟩ := counts_append.1 h
    obtain ⟨before, hline, hcol, hfound⟩ := ih hu (c :: v)
    have hstep := (counts_cons.1 hc).1
    rw [List.append_assoc, List.singleton_append, after_concat, List.count_append,
      List.count_singleton]
    -- a line feed moves on to the head of the lines that are left
    by_cases hfeed : c = '\n'
    · subst hfeed
      refine ⟨[], ?_, ?_, ?_⟩
      · rw [step_lineFeed, if_pos (by simp)]
        exact (toNat_succ (step?_lineFeed.1 hstep)).trans (congrArg (· + 1) hline)
      · rw [step_lineFeed]
        rfl
      · rw [if_pos (by simp), Text.lines_append, ← Text.length_lines,
          List.getElem?_append_right (Nat.le_refl _), Nat.sub_self, Text.head?_lines]
        rfl
    · refine ⟨before ++ [c], ?_, ?_, ?_⟩
      · rw [step_of_ne hfeed, if_neg (by simpa using hfeed)]
        exact hline
      · rw [step_of_ne hfeed, List.length_append]
        exact (toNat_succ ((step?_of_ne hfeed).1 hstep)).trans (congrArg (· + 1) hcol)
      · rw [if_neg (by simpa using hfeed), Nat.add_zero, hfound,
          List.takeWhile_cons_of_pos (by simpa using hfeed), List.append_assoc,
          List.singleton_append]

/-- The position moves through the lines of a text: what is left of its own
line has to fit after it, and every other line from the first column on. -/
theorem counts_iff_lines : Counts p text ↔
    p.line.toNat + text.count '\n' < UInt32.size ∧
    p.col.toNat + (text.takeWhile (· != '\n')).length < UInt32.size ∧
    ∀ line ∈ (Text.lines text).tail, line.length + 1 < UInt32.size := by
  induction text generalizing p with
  | nil =>
    have hline := p.line.toNat_lt_size
    have hcol := p.col.toNat_lt_size
    simpa [Text.lines] using ⟨hline, hcol⟩
  | cons c cs ih =>
    rw [counts_cons, ih]
    by_cases hc : c = '\n'
    · subst hc
      have hsplit : Text.lines ('\n' :: cs) = [] :: Text.lines cs := Text.lines_append [] cs
      have hcol := p.col.toNat_lt_size
      rw [step?_lineFeed, step_lineFeed, hsplit, List.tail_cons, Text.lines_eq_cons cs,
        List.forall_mem_cons, List.tail_cons, List.count_cons_self,
        List.takeWhile_cons_of_neg (by simp), List.length_nil, UInt32.toNat_one]
      constructor
      · rintro ⟨hnext, hcount, hlength, hothers⟩
        rw [toNat_succ hnext] at hcount
        exact ⟨by omega, hcol, by omega, hothers⟩
      · rintro ⟨hcount, -, hlength, hothers⟩
        have hnext : p.line.toNat + 1 < UInt32.size := by omega
        rw [toNat_succ hnext]
        exact ⟨hnext, by omega, by omega, hothers⟩
    · have htail : (Text.lines (c :: cs)).tail = (Text.lines cs).tail := by
        rw [Text.lines, List.splitOn_cons_eq_if_modifyHead, if_neg (by simpa using hc)]
        cases h : List.splitOn '\n' cs <;> simp [Text.lines, h]
      rw [step?_of_ne hc, step_of_ne hc, htail, List.count_cons_of_ne hc,
        List.takeWhile_cons_of_pos (by simpa using hc), List.length_cons]
      constructor
      · rintro ⟨hnext, hcount, hlength, hothers⟩
        rw [toNat_succ hnext] at hlength
        exact ⟨hcount, by omega, hothers⟩
      · rintro ⟨hcount, hlength, hothers⟩
        have hnext : p.col.toNat + 1 < UInt32.size := by omega
        rw [toNat_succ hnext]
        exact ⟨hnext, hcount, by omega, hothers⟩

/-- The lines before a position fit: it is counted past their ends. -/
theorem Counts.length_lt_of_getElem? {i : Nat} {line : List Char} (h : Counts .origin u)
    (hi : i < u.count '\n') (hline : (Text.lines (u ++ v))[i]? = some line) :
    line.length < UInt32.size := by
  induction u using List.reverseRec generalizing v with
  | nil => exact absurd hi (Nat.not_lt_zero _)
  | append_singleton u c ih =>
    have hu := (counts_append.1 h).1
    rw [List.append_assoc, List.singleton_append] at hline
    by_cases hlast : i < u.count '\n'
    · exact ih hu hlast hline
    · -- the line that is ended here
      have hfeed : c = '\n' := by
        by_contra hne
        rw [List.count_append, List.count_singleton, if_neg (by simpa using hne)] at hi
        exact hlast hi
      subst hfeed
      rw [List.count_append, List.count_singleton_self] at hi
      obtain ⟨before, -, hcol, hfound⟩ := hu.exists_line_at ('\n' :: v)
      rw [List.takeWhile_cons_of_neg (by simp), List.append_nil,
        show u.count '\n' = i by omega] at hfound
      obtain rfl := Option.some.inj (hfound.symm.trans hline)
      have hlt := (origin.after u).col.toNat_lt_size
      omega

end Position

/-- The counters can tell every line of a text and every column of a line,
the one after its last character included. -/
structure Text.Fits (text : List Char) : Prop where
  lines : (Text.lines text).length < UInt32.size
  columns : ∀ line ∈ Text.lines text, line.length + 1 < UInt32.size

/-- **A text is counted to its end when its lines fit.** -/
theorem Position.counts_origin_iff {text : List Char} : Counts .origin text ↔ Text.Fits text := by
  rw [counts_iff_lines]
  constructor
  · rintro ⟨hcount, hlength, hothers⟩
    refine ⟨?_, ?_⟩
    · rw [Text.length_lines, Nat.add_comm]
      exact hcount
    · rw [Text.lines_eq_cons, List.forall_mem_cons, Nat.add_comm]
      exact ⟨hlength, hothers⟩
  · rintro ⟨hcount, hcolumns⟩
    rw [Text.length_lines, Nat.add_comm] at hcount
    rw [Text.lines_eq_cons, List.forall_mem_cons, Nat.add_comm] at hcolumns
    exact ⟨hcount, hcolumns.1, hcolumns.2⟩

/-! ## The checked scan -/

namespace Scan

variable {room : Nat} {p : Position} {tokens : List Token} {faults : List Fault}
  {run : List Char} {runs : List (List Char)} {scan : Scan}

/-- `collect` by checked counters. -/
def collect? (room : Nat) (p : Position) (tokens : List Token) (faults : List Fault) :
    List (List Char) → Option Scan
  | [] => some (finish p tokens faults)
  | run :: rest =>
    match Lexeme.ofRun run, room with
    | .blank, _ => (p.after? run).bind fun q => collect? room q tokens faults rest
    | _, 0 => some (finish p tokens faults)
    | .token kind, room + 1 =>
      (p.after? run).bind fun q =>
        collect? (room + 1) q (⟨kind, spanOf p run⟩ :: tokens) faults rest
    | .bad cause, room + 1 =>
      (p.after? run).bind fun q => collect? room q tokens (⟨cause, spanOf p run⟩ :: faults) rest

/-- The scan of a text by checked counters: there is none when a counter
would have to pass its last value. -/
def ofText? (text : List Char) : Option Scan :=
  collect? maxFaults .origin [] [] (Lexeme.runs text)

theorem collect?_blank (h : Lexeme.ofRun run = .blank) :
    collect? room p tokens faults (run :: runs) =
      (p.after? run).bind fun q => collect? room q tokens faults runs := by
  simp [collect?, h]

theorem collect?_token {kind : TokenKind} (h : Lexeme.ofRun run = .token kind) :
    collect? (room + 1) p tokens faults (run :: runs) =
      (p.after? run).bind fun q =>
        collect? (room + 1) q (⟨kind, spanOf p run⟩ :: tokens) faults runs := by
  simp [collect?, h]

theorem collect?_full (h : Lexeme.ofRun run ≠ .blank) :
    collect? 0 p tokens faults (run :: runs) = some (finish p tokens faults) := by
  cases hrun : Lexeme.ofRun run <;> simp_all [collect?]

theorem collect?_bad {cause : Cause} (h : Lexeme.ofRun run = .bad cause) :
    collect? (room + 1) p tokens faults (run :: runs) =
      (p.after? run).bind fun q =>
        collect? room q tokens (⟨cause, spanOf p run⟩ :: faults) runs := by
  simp [collect?, h]

/-- A checked scan is the scan. -/
theorem eq_collect_of_collect? (h : collect? room p tokens faults runs = some scan) :
    scan = collect room p tokens faults runs := by
  induction runs generalizing room p tokens faults with
  | nil => exact (Option.some.inj h).symm
  | cons run rest ih =>
    -- the cursor after a lexeme that can be checked is the one after it
    have hnext : ∀ {room' tokens' faults'},
        ((p.after? run).bind fun q => collect? room' q tokens' faults' rest) = some scan →
          scan = collect room' (p.after run) tokens' faults' rest := by
      intro room' tokens' faults' hbind
      obtain ⟨q, hq, hrest⟩ := Option.bind_eq_some_iff.1 hbind
      rw [← Position.eq_after_of_after? hq]
      exact ih hrest
    cases hrun : Lexeme.ofRun run with
    | blank =>
      rw [collect?_blank hrun] at h
      rw [collect_blank hrun]
      exact hnext h
    | token kind => cases room with
      | zero =>
        have hne : Lexeme.ofRun run ≠ .blank := by simp [hrun]
        rw [collect?_full hne] at h
        rw [collect_full hne, Option.some.inj h]
      | succ room =>
        rw [collect?_token hrun] at h
        rw [collect_token hrun]
        exact hnext h
    | bad cause => cases room with
      | zero =>
        have hne : Lexeme.ofRun run ≠ .blank := by simp [hrun]
        rw [collect?_full hne] at h
        rw [collect_full hne, Option.some.inj h]
      | succ room =>
        rw [collect?_bad hrun] at h
        rw [collect_bad hrun]
        exact hnext h

theorem eq_ofText_of_ofText? {text : List Char} (h : ofText? text = some scan) :
    scan = ofText text :=
  eq_collect_of_collect? h

/-- What is counted to its end can be scanned. -/
theorem isSome_collect? (h : p.Counts runs.flatten) :
    (collect? room p tokens faults runs).isSome = true := by
  induction runs generalizing room p tokens faults with
  | nil => rfl
  | cons run rest ih =>
    rw [List.flatten_cons, Position.counts_append] at h
    obtain ⟨hrun, hrest⟩ := h
    unfold collect?
    split
    · rw [hrun]
      exact ih hrest
    · rfl
    · rw [hrun]
      exact ih hrest
    · rw [hrun]
      exact ih hrest

/-- **A text whose lines fit has a checked scan.** -/
theorem ofText?_of_fits {text : List Char} (h : Text.Fits text) :
    ofText? text = some (ofText text) := by
  have hflatten : (Lexeme.runs text).flatten = text := (Lexeme.isCut_iff.2 rfl).flatten_eq
  have hcounts : Position.origin.Counts (Lexeme.runs text).flatten := by
    rw [hflatten]
    exact Position.counts_origin_iff.2 h
  obtain ⟨scan, hscan⟩ := Option.isSome_iff_exists.1 (isSome_collect? hcounts)
  have htext : ofText? text = some scan := hscan
  rw [htext, eq_ofText_of_ofText? htext]

end Scan

end Abacus
