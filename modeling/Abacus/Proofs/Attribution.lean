import Abacus.Proofs.Pointing

/-!
# Attribution

What a diagnostic says about itself fits together, and fits the source. Its
code belongs to its kind and its category to the code; its span lies within
the lines of the source, the first of which it quotes. The name of a source
is only ever copied.
-/

namespace Abacus

/-! ## Lines -/

namespace Source

variable {source : Source} {n : Nat} {line : String}

/-- A line that is found has one of the numbers from one to their count. -/
theorem bounds_of_line? (h : source.line? n = some line) : 1 ≤ n ∧ n ≤ source.lineCount :=
  isSome_line?_iff.1 (Option.isSome_of_eq_some h)

/-- A position that goes through the text is in one of its lines. -/
theorem exists_line?_at {u v : List Char} (hcounts : Position.origin.Counts u)
    (htext : source.text = u ++ v) :
    ∃ line, source.line? (Position.origin.after u).line.toNat = some line := by
  obtain ⟨before, hfirst, -, hline⟩ := hcounts.exists_line_at v
  rw [hfirst, line?_succ, htext, hline]
  exact ⟨_, rfl⟩

end Source

/-- A span lies within the lines of a source: it does not end before it
begins, and there is a line where it begins and one where it ends. -/
structure Span.WithinLines (source : Source) (s : Span) : Prop where
  upTo : s.first.upTo s.last = true
  first : ∃ line, source.line? s.first.line.toNat = some line
  last : ∃ line, source.line? s.last.line.toNat = some line

/-- **What stands in a source lies within its lines.** -/
theorem Span.StandsIn.withinLines {source : Source} {s : Span} (h : s.StandsIn source) :
    s.WithinLines source := by
  cases h with
  | lexemes hx hy upTo =>
    obtain ⟨line, hline, -⟩ := hx.standsIn.reads
    obtain ⟨line', hline', -⟩ := hy.standsIn.reads
    exact ⟨upTo, ⟨line, hline⟩, ⟨line', hy.standsIn.one_line ▸ hline'⟩⟩
  | stop text counts clean =>
    have hline := Source.exists_line?_at counts text
    exact ⟨Position.upTo_refl _, hline, hline⟩

/-! ## Diagnostics -/

/-- A diagnostic has the name of a source and fits together. -/
structure Diagnostic.Consistent (source : Source) (d : Diagnostic) : Prop where
  file : d.file = source.name
  code : d.code = d.kind.code
  category : d.category = d.code.category

/-- A diagnostic that fits together belongs to a source: its span lies within
the lines of the source, and it quotes the first of them. -/
structure Diagnostic.AttributedTo (source : Source) (d : Diagnostic) : Prop
    extends d.Consistent source where
  upTo : d.span.first.upTo d.span.last = true
  one_le_line : 1 ≤ d.span.first.line.toNat
  line_le_line : d.span.first.line.toNat ≤ d.span.last.line.toNat
  line_le_count : d.span.last.line.toNat ≤ source.lineCount
  quotes : source.line? d.span.first.line.toNat = some d.sourceLine

theorem Fault.consistent_diagnose (source : Source) (f : Fault) :
    (f.diagnose source).Consistent source :=
  ⟨rfl, rfl, rfl⟩

/-- **A fault that is found makes a diagnostic of its source.** -/
theorem Fault.attributedTo_diagnose {limits : Limits} {source : Source} {f : Fault}
    (hscan : (Scan.ofText? source.text).isSome = true) (h : FoundIn limits source.text f) :
    (f.diagnose source).AttributedTo source := by
  obtain ⟨upTo, ⟨line, hline⟩, ⟨line', hline'⟩⟩ := (h.standsIn hscan).withinLines
  refine ⟨f.consistent_diagnose source, upTo, (Source.bounds_of_line? hline).1, ?_,
    (Source.bounds_of_line? hline').2, ?_⟩
  · have horder := Position.upTo_iff.1 upTo
    show f.span.first.line.toNat ≤ f.span.last.line.toNat
    omega
  · show source.line? f.span.first.line.toNat =
      some ((source.line? f.span.first.line.toNat).getD "")
    rw [hline, Option.getD_some]

theorem Faults.foundIn_of_calculate {limits : Limits} {text : List Char} {faults : Faults}
    (h : calculate limits text = .error faults) : ∀ f ∈ faults.toList, FoundIn limits text f := by
  intro f hf
  rcases Abacus.foundIn_of_calculate h with hfaults | ⟨-, f', rfl, hfound⟩
  · exact .scan (hfaults ▸ hf)
  · rw [List.mem_singleton.1 hf]
    exact hfound

end Abacus
