import Abacus.Diagnostic.Render
import Abacus.Proofs.Attribution
import Abacus.Proofs.ReadBack

/-!
# Carets

What a diagnostic looks like on a terminal. Nothing that goes into it has a
line feed, so its text has as many lines as it has rows. The row of carets
is as wide before its first column as the row above, which shows the source
line, and the carets stand under the part of that line that the span
covers. At the end of the text there is nothing to point under, and one
caret stands past the line.
-/

namespace Abacus

/-! ## Text without line feeds -/

namespace Text

variable {s t : String} {cs : List Char} {a b : Option String}

/-- There is no line feed in a text. -/
def OneLine (s : String) : Prop :=
  '\n' ∉ s.toList

theorem oneLine_ofList (h : '\n' ∉ cs) : OneLine (String.ofList cs) := by
  rwa [OneLine, String.toList_ofList]

theorem OneLine.append (hs : OneLine s) (ht : OneLine t) : OneLine (s ++ t) := by
  rw [OneLine, String.toList_append, List.mem_append]
  exact not_or.2 ⟨hs, ht⟩

theorem OneLine.quoted (h : OneLine s) : OneLine ("'" ++ s ++ "'") :=
  ((oneLine_ofList (by decide)).append h).append (oneLine_ofList (by decide))

theorem oneLine_nat (n : Nat) : OneLine (toString n) := by
  rw [OneLine, Nat.toString_eq_repr, Nat.toList_repr]
  intro hfeed
  exact absurd ((Numeral.allDigits_digitsOf n).2 _ hfeed) (by decide)

theorem oneLine_some (h : '\n' ∉ cs) : ∀ s ∈ some (String.ofList cs), OneLine s :=
  fun _ hs => Option.mem_some.1 hs ▸ oneLine_ofList h

theorem oneLine_ite {p : Prop} [Decidable p] (ha : ∀ s ∈ a, OneLine s) (hb : ∀ s ∈ b, OneLine s) :
    ∀ s ∈ (if p then a else b), OneLine s := by
  split
  · exact ha
  · exact hb

end Text

open Text (OneLine oneLine_ofList oneLine_nat oneLine_ite oneLine_some)

/-! ## Wording -/

theorem Double.oneLine_toPlain (x : Double) : OneLine (String.ofList x.toPlain) := by
  apply oneLine_ofList
  intro hfeed
  exact absurd (mem_toPlain hfeed) (by decide)

theorem TokenKind.oneLine_text (kind : TokenKind) : OneLine kind.text := by
  cases kind with
  | number value => exact value.oneLine_toPlain
  | _ => exact oneLine_ofList (by decide)

theorem TokenKind.oneLine_found (kind : TokenKind) : OneLine kind.found := by
  cases kind with
  | endOfInput => exact oneLine_ofList (by decide)
  | _ => exact (oneLine_text _).quoted

theorem BinaryOp.oneLine_symbol (op : BinaryOp) : OneLine (String.singleton op.symbol) := by
  cases op <;> exact oneLine_ofList (by decide)

theorem Numeral.oneLine_hint {run : List Char} (h : '\n' ∉ run) : OneLine (defect run).hint := by
  have htail : '\n' ∉ '0' :: '.' :: run.tail := by
    simpa using mt List.mem_of_mem_tail h
  have hinit : '\n' ∉ run.dropLast := mt (List.dropLast_subset _ ·) h
  have hpadded : '\n' ∉ run.dropLast ++ ['.', '0'] := by simpa using hinit
  unfold defect
  repeat' split
  · exact oneLine_ofList (by decide)
  · exact oneLine_ofList (by decide)
  · exact (oneLine_ofList (by decide)).append (oneLine_ofList htail).quoted
  · exact ((((oneLine_ofList (by decide)).append (oneLine_ofList hinit).quoted).append
      (oneLine_ofList (by decide))).append (oneLine_ofList hpadded).quoted).append
      (oneLine_ofList (by decide))
  · exact oneLine_ofList (by decide)

namespace Cause

variable {cause : Cause} {run : List Char}

/-- The characters of the text that a cause quotes. -/
def quotes : Cause → List Char
  | unexpectedCharacter c => [c]
  | malformedNumeral run => run
  | _ => []

/-- **No cause breaks the line**, unless what it quotes does. -/
theorem oneLine_message (h : '\n' ∉ cause.quotes) : OneLine cause.message := by
  cases cause with
  | unexpectedCharacter c =>
    have hc : OneLine (String.singleton c) := oneLine_ofList h
    exact ((oneLine_ofList (by decide)).append hc).append (oneLine_ofList (by decide))
  | malformedNumeral run => exact (oneLine_ofList (by decide)).append (oneLine_ofList h).quoted
  | tooManyTokens count limit =>
    exact (((oneLine_ofList (by decide)).append (oneLine_nat count)).append
      (oneLine_ofList (by decide))).append (oneLine_nat limit)
  | missingOperand previous found => cases previous with
    | none => exact (oneLine_ofList (by decide)).append found.oneLine_found
    | some previous =>
      exact (((oneLine_ofList (by decide)).append previous.oneLine_text).append
        (oneLine_ofList (by decide))).append found.oneLine_found
  | missingClose found => exact (oneLine_ofList (by decide)).append found.oneLine_found
  | trailing found =>
    exact ((oneLine_ofList (by decide)).append found.oneLine_text).append
      (oneLine_ofList (by decide))
  | nestedTooDeep limit => exact (oneLine_ofList (by decide)).append (oneLine_nat limit)
  | stepsExhausted limit =>
    exact ((oneLine_ofList (by decide)).append (oneLine_nat limit)).append
      (oneLine_ofList (by decide))
  | resultTooLarge op =>
    exact ((oneLine_ofList (by decide)).append op.oneLine_symbol).append
      (oneLine_ofList (by decide))
  | _ => exact oneLine_ofList (by decide)

theorem oneLine_characterHint? (c : Char) : ∀ s ∈ characterHint? c, OneLine s := by
  have hnone : ∀ s ∈ (none : Option String), OneLine s := by
    intro s hs
    exact absurd hs (Option.not_mem_none s)
  unfold characterHint?
  repeat' apply oneLine_ite
  all_goals first
    | exact hnone
    | exact oneLine_some (by decide)

theorem oneLine_suggestion? (h : '\n' ∉ cause.quotes) : ∀ s ∈ cause.suggestion?, OneLine s := by
  cases cause with
  | unexpectedCharacter c => exact oneLine_characterHint? c
  | malformedNumeral run => exact fun s hs => Option.mem_some.1 hs ▸ Numeral.oneLine_hint h
  | unmatchedClose => exact oneLine_some (by decide)
  | unclosedOpen => exact oneLine_some (by decide)
  | trailing found => exact oneLine_some (by decide)
  | _ => exact fun s hs => absurd hs (Option.not_mem_none s)

theorem quotes_of_means (h : Lexeme.Means run (.bad cause)) : cause.quotes = run := by
  cases h <;> rfl

theorem quotes_of_not_isLexical (h : cause.isLexical = false) : cause.quotes = [] := by
  cases cause with
  | unexpectedCharacter => cases h
  | malformedNumeral => cases h
  | _ => rfl

end Cause

/-! ## Rows -/

/-- A line that a source finds has no line feed. -/
theorem Source.oneLine_of_line? {source : Source} {n : Nat} {line : String}
    (h : source.line? n = some line) : OneLine line := by
  cases n with
  | zero => cases h
  | succ i =>
    rw [line?_succ] at h
    obtain ⟨whole, hwhole, rfl⟩ := Option.map_eq_some_iff.1 h
    have hfeed := Text.lineFeed_not_mem_of_mem_lines (List.mem_of_getElem? hwhole)
    exact oneLine_ofList (mt (fun hmem => (Text.trimReturns_sublist whole).subset hmem) hfeed)

namespace Diagnostic

variable {d : Diagnostic} {first last : Nat}

/-- What stands before the source line in its row. -/
def margin (d : Diagnostic) : String :=
  toString d.span.first.line ++ " | "

/-- The texts that go into the rows of a diagnostic have no line feed. -/
structure OneLined (d : Diagnostic) : Prop where
  file : OneLine d.file
  message : OneLine d.message
  sourceLine : OneLine d.sourceLine
  suggestion : ∀ s ∈ d.suggestion?, OneLine s

theorem length_rows (d : Diagnostic) :
    d.rows.length = if d.suggestion?.isSome then 6 else 5 := by
  unfold rows
  cases d.suggestion? <;> rfl

theorem oneLine_fill {c : Char} (hc : c ≠ '\n') (count : Nat) : OneLine (fill c count) :=
  oneLine_ofList fun hfeed => hc (List.eq_of_mem_replicate hfeed).symm

theorem oneLine_rows (h : d.OneLined) : ∀ row ∈ d.rows, OneLine row := by
  have hnumber := oneLine_nat d.span.first.line.toNat
  have hgutter := oneLine_fill (c := ' ') (by decide) (toString d.span.first.line).length
  have hcode : OneLine d.code.text := (oneLine_ofList (by decide)).append (oneLine_nat _)
  have hspan : OneLine d.span.text :=
    (hnumber.append (oneLine_ofList (by decide))).append (oneLine_nat _)
  have hblanks := oneLine_fill (c := ' ') (by decide) (d.caretStart - 1).toNat
  have hcarets := oneLine_fill (c := '^') (by decide) d.caretCount.toNat
  intro row hrow
  unfold rows at hrow
  rcases List.mem_append.1 hrow with hrow | hhelp
  · simp only [List.mem_cons, List.not_mem_nil, or_false] at hrow
    rcases hrow with rfl | rfl | rfl | rfl | rfl
    · exact (((oneLine_ofList (by decide)).append hcode).append
        (oneLine_ofList (by decide))).append h.message
    · exact (((hgutter.append (oneLine_ofList (by decide))).append h.file).append
        (oneLine_ofList (by decide))).append hspan
    · exact hgutter.append (oneLine_ofList (by decide))
    · exact (hnumber.append (oneLine_ofList (by decide))).append h.sourceLine
    · exact ((hgutter.append (oneLine_ofList (by decide))).append hblanks).append hcarets
  · cases hs : d.suggestion? with
    | none =>
      rw [hs] at hhelp
      exact absurd hhelp List.not_mem_nil
    | some suggestion =>
      rw [hs] at hhelp
      rw [List.mem_singleton.1 hhelp]
      exact (hgutter.append (oneLine_ofList (by decide))).append (h.suggestion _ hs)

theorem toList_render (d : Diagnostic) :
    d.render.toList = (d.rows.map String.toList).flatMap (· ++ ['\n']) := by
  have hfold : ∀ (rows : List String) (text : String),
      (rows.foldl (fun text row => text ++ row ++ "\n") text).toList =
        text.toList ++ (rows.map String.toList).flatMap (· ++ ['\n']) := by
    intro rows
    induction rows with
    | nil => simp
    | cons row rows ih =>
      intro text
      rw [List.foldl_cons, ih]
      simp
  exact hfold d.rows ""

/-- **The text of a diagnostic is its rows**, and each row is a line. -/
theorem lines_render (h : d.OneLined) :
    Text.lines d.render.toList = d.rows.map String.toList ++ [[]] := by
  rw [toList_render]
  refine Text.lines_flatMap fun chars hchars => ?_
  obtain ⟨row, hrow, rfl⟩ := List.mem_map.1 hchars
  exact oneLine_rows h row hrow

/-! ## Carets -/

/-- A row has carets under the columns from `first` to `last` and nowhere
else, with the columns counted after a margin. -/
def CaretsUnder (row : String) (margin first last : Nat) : Prop :=
  ∀ i, row.toList[i]? = some '^' ↔ margin + first ≤ i + 1 ∧ i + 1 ≤ margin + last

theorem caretsUnder_append {before : String} {margin count : Nat} (h : '^' ∉ before.toList)
    (hfirst : before.length + 1 = margin + first) (hlast : first + count = last + 1) :
    CaretsUnder (before ++ fill '^' count) margin first last := by
  intro i
  rw [String.toList_append, fill, String.toList_ofList, List.getElem?_append, String.length_toList]
  split
  · constructor
    · intro hi
      exact absurd (List.mem_of_getElem? hi) h
    · omega
  · rw [List.getElem?_replicate]
    split
    · simp only [true_iff]
      omega
    · simp only [reduceCtorEq, false_iff]
      omega

/-- The text of a diagnostic is five rows, or six with a suggestion. One of
them shows the source line, and the next has carets under the columns from
`first` to `last` of it, and nowhere else. -/
structure Marks (d : Diagnostic) (rows : List String) (first last : Nat) : Prop where
  lines : Text.lines d.render.toList = rows.map String.toList ++ [[]]
  count : rows.length = if d.suggestion?.isSome then 6 else 5
  shows : rows[3]? = some (d.margin ++ d.sourceLine)
  carets : ∃ row, rows[4]? = some row ∧ CaretsUnder row d.margin.length first last

theorem one_le_caretStart (d : Diagnostic) : 1 ≤ d.caretStart.toNat := by
  rw [caretStart, toNat_max]
  exact Nat.le_max_right ..

/-- The number of carets does not pass the last value of a counter, as the
first column is not before one. -/
theorem toNat_caretCount (d : Diagnostic) :
    d.caretCount.toNat = d.caretStop.toNat - d.caretStart.toNat + 1 := by
  have hpos := d.one_le_caretStart
  have hlt := d.caretStop.toNat_lt_size
  have hnext : (monus d.caretStop d.caretStart).toNat + 1 < UInt32.size := by
    have hone : 1 < UInt32.size := by decide
    rw [toNat_monus]
    omega
  rw [caretCount, toNat_succ hnext, toNat_monus]

theorem marks_rows (h : d.OneLined) (hcol : d.caretStart.toNat ≤ d.caretStop.toNat) :
    d.Marks d.rows d.caretStart.toNat d.caretStop.toNat := by
  have hpos := d.one_le_caretStart
  refine ⟨lines_render h, length_rows d, rfl, _, rfl, caretsUnder_append ?_ ?_ ?_⟩
  · simp [fill]
  · have hblanks : (d.caretStart - 1).toNat = d.caretStart.toNat - 1 :=
      UInt32.toNat_sub_of_le _ _ (UInt32.le_iff_toNat_le.2 hpos)
    simp only [String.length_append, fill, String.length_ofList, List.length_replicate, margin,
      hblanks]
    show (toString d.span.first.line).length + 3 + (d.caretStart.toNat - 1) + 1 =
      (toString d.span.first.line).length + 3 + d.caretStart.toNat
    omega
  · rw [toNat_caretCount]
    omega

/-- The last column of its source line that a diagnostic covers. -/
def lastColumn (d : Diagnostic) : Nat :=
  if d.span.first.line = d.span.last.line then d.span.last.col.toNat else d.sourceLine.length

/-- The carets go from the first column that is covered to the last. The
length of the line is only asked for where the span leaves it. -/
theorem marks_covered (h : d.OneLined) (hpos : 1 ≤ d.span.first.col.toNat)
    (hle : d.span.first.col.toNat ≤ d.lastColumn)
    (hlength : d.span.first.line ≠ d.span.last.line → d.sourceLine.length < UInt32.size) :
    d.Marks d.rows d.span.first.col.toNat d.lastColumn := by
  have hstart : d.caretStart.toNat = d.span.first.col.toNat := by
    rw [caretStart, toNat_max]
    exact Nat.max_eq_left hpos
  have hstop : d.caretStop.toNat = d.lastColumn := by
    unfold caretStop lastColumn Span.width? at *
    by_cases hline : d.span.first.line = d.span.last.line
    · rw [if_pos hline, if_pos hline]
    · rw [if_neg hline] at hle
      rw [if_neg hline, if_neg hline]
      show (max (UInt32.ofNat d.sourceLine.length) d.caretStart).toNat = _
      rw [toNat_max, UInt32.toNat_ofNat_of_lt' (hlength hline), hstart]
      exact Nat.max_eq_left hle
  have hmarks := marks_rows h (by omega)
  rwa [hstart, hstop] at hmarks

end Diagnostic

/-! ## Columns -/

variable {limits : Limits} {source : Source} {f : Fault}

/-- A lexeme does not go past the end of its line. -/
theorem Scan.Placed.IsReached.col_le_length {x : Scan.Placed} (h : x.IsReached source.text) :
    ∃ line, source.line? x.span.first.line.toNat = some line ∧
      x.span.last.col.toNat ≤ line.length := by
  obtain ⟨line, hline, hreads⟩ := h.standsIn.reads
  have hlength := congrArg List.length hreads
  have hpos := Scan.Placed.length_pos h.isLexeme
  have hlast := (h.counted.last_span h.isLexeme h.not_blank).2
  have hfirst : x.span.first.col.toNat = x.start.col.toNat := rfl
  rw [List.length_drop, List.length_take, String.length_toList] at hlength
  exact ⟨line, hline, by omega⟩

/-- The end of a text stands past the end of its line. -/
theorem Source.length_lt_col_end (source : Source)
    (hcounts : Position.origin.Counts source.text) :
    ∃ line, source.line? (Position.origin.after source.text).line.toNat = some line ∧
      line.length < (Position.origin.after source.text).col.toNat := by
  obtain ⟨before, hlast, hcol, hline⟩ := hcounts.exists_line_at []
  rw [List.append_nil, List.takeWhile_nil, List.append_nil] at hline
  rw [hlast, hcol, line?_succ, hline]
  refine ⟨_, rfl, ?_⟩
  rw [String.length_ofList]
  exact Nat.lt_succ_of_le (Text.trimReturns_sublist before).length_le

/-- What is found wrong with a text does not break the line it is told in. -/
theorem FoundIn.oneLined (hscan : (Scan.ofText? source.text).isSome = true)
    (h : FoundIn limits source.text f) (hname : OneLine source.name) :
    (f.diagnose source).OneLined := by
  have hquotes : '\n' ∉ f.cause.quotes := by
    rcases h.cases hscan with ⟨x, hx, hbad, -⟩ | hconcerns
    · rw [Cause.quotes_of_means ((Lexeme.means_iff hx.isLexeme).2 hbad)]
      exact Scan.Placed.lineFeed_not_mem hx.isLexeme hx.not_blank
    · rw [Cause.quotes_of_not_isLexical hconcerns.cause]
      exact List.not_mem_nil
  refine ⟨hname, Cause.oneLine_message hquotes, ?_, Cause.oneLine_suggestion? hquotes⟩
  obtain ⟨line, hline⟩ := (h.standsIn hscan).withinLines.first
  show OneLine ((source.line? f.span.first.line.toNat).getD "")
  rw [hline]
  exact Source.oneLine_of_line? hline

/-- From a lexeme to a lexeme there is at least one column in the first line,
and none past it. The whole of that line has been counted when the second
lexeme stands in another. -/
theorem Scan.Placed.IsReached.columns {x y : Scan.Placed} (source : Source)
    (hx : x.IsReached source.text) (hy : y.IsReached source.text)
    (hupTo : x.span.first.upTo y.span.last = true) :
    ∃ line last, source.line? x.span.first.line.toNat = some line ∧
      last = (if x.span.first.line = y.span.last.line then y.span.last.col.toNat
        else line.length) ∧
      x.span.first.col.toNat ≤ last ∧ last ≤ line.length ∧
      (x.span.first.line ≠ y.span.last.line → line.length < UInt32.size) := by
  obtain ⟨line, hline, hcol⟩ := hx.col_le_length
  have hsame := hy.standsIn.one_line
  rw [Position.upTo_iff] at hupTo
  refine ⟨line, _, hline, rfl, ?_⟩
  by_cases hlines : x.span.first.line = y.span.last.line
  · obtain ⟨line', hline', hcol'⟩ := hy.col_le_length
    rw [hsame, ← hlines, hline] at hline'
    cases hline'
    have hequal := congrArg UInt32.toNat hlines
    rw [if_pos hlines]
    exact ⟨by omega, hcol', fun hne => absurd hlines hne⟩
  · have hbefore : x.span.first.line.toNat < y.span.first.line.toNat := by
      have hne := mt UInt32.toNat_inj.1 hlines
      rw [hsame]
      omega
    rw [if_neg hlines]
    exact ⟨hx.standsIn.col_le_col.trans hcol, Nat.le_refl _, fun _ => hy.length_lt hbefore hline⟩

/-! ## Errors -/

variable {text : String} {d : Diagnostic}

/-- A span is the place that checked counters reach at the end of a text. -/
def Span.AtEnd (s : Span) (text : List Char) : Prop :=
  (Position.origin.after? text).map Span.point = some s

instance (s : Span) (text : List Char) : Decidable (s.AtEnd text) :=
  inferInstanceAs (Decidable (_ = _))

theorem Span.atEnd_iff {s : Span} {text : List Char} :
    s.AtEnd text ↔ Position.origin.Counts text ∧ s = .point (Position.origin.after text) := by
  rw [AtEnd, Option.map_eq_some_iff]
  constructor
  · rintro ⟨p, hp, rfl⟩
    obtain rfl := Position.eq_after_of_after? hp
    exact ⟨hp, rfl⟩
  · rintro ⟨hcounts, rfl⟩
    exact ⟨_, hcounts, rfl⟩

/-- An error shows the line where it begins. It stands where the text ends,
or goes from a lexeme to a lexeme. -/
theorem placed_of_evaluate (hscan : (Scan.ofText? text.toList).isSome = true)
    (h : evaluate text limits = .error d) :
    d.OneLined ∧ (Source.ofText text).line? d.span.first.line.toNat = some d.sourceLine ∧
      (d.span.AtEnd text.toList ∨
        ∃ x y : Scan.Placed, x.IsReached text.toList ∧ y.IsReached text.toList ∧
          x.span.first.upTo y.span.last = true ∧ d.span = ⟨x.span.first, y.span.last⟩) := by
  cases hcalculate : calculate limits text.toList with
  | ok v =>
    rw [evaluate_of_ok hcalculate] at h
    cases h
  | error faults =>
    rw [evaluate_of_error hcalculate] at h
    cases h
    have hfound : FoundIn limits (Source.ofText text).text faults.first :=
      Faults.foundIn_of_calculate hcalculate _ List.mem_cons_self
    refine ⟨hfound.oneLined hscan (oneLine_ofList (by decide)),
      (Fault.attributedTo_diagnose hscan hfound).quotes, ?_⟩
    show faults.first.span.AtEnd _ ∨ ∃ x y : Scan.Placed, _ ∧ _ ∧ _ ∧ faults.first.span = _
    rcases foundIn_of_calculate hcalculate with hfaults | ⟨hclean, f, rfl, -⟩
    · have hfirst : faults.first ∈ (Scan.ofText text.toList).faults := by
        rw [hfaults]
        exact List.mem_cons_self
      obtain ⟨x, hx, hbad, hspan⟩ := Scan.exists_lexeme_of_fault hscan hfirst
      have hstands := (show x.IsReached (Source.ofText text).text from hx).standsIn
      refine .inr ⟨x, x, hx, hx, ?_, hspan⟩
      exact Position.upTo_iff.2
        (.inr ⟨congrArg UInt32.toNat hstands.one_line, hstands.col_le_col⟩)
    · have hstands := hfound.standsIn hscan
      generalize (Faults.one f).first.span = s at hstands
      cases hstands with
      | lexemes hx hy upTo => exact .inr ⟨_, _, hx, hy, upTo, rfl⟩
      | @stop u v htext hcounts hstop =>
        rw [hstop hclean, List.append_nil] at htext
        have hwhole : text.toList = u := htext
        subst hwhole
        exact .inl (Span.atEnd_iff.2 ⟨hcounts, rfl⟩)

end Abacus
