import Abacus.Source
import Mathlib.Data.List.TakeWhile

/-!
# Lines

The lines of a text by splitting it at its line feeds, and the table of byte
offsets that a source looks its lines up in. The table is made by walking
the bytes of the text, the split by walking its characters; `line?_succ` is
where the two meet.
-/

namespace Abacus

namespace Text

/-- The lines of a text. -/
def lines (text : List Char) : List (List Char) :=
  text.splitOn '\n'

variable {text u line : List Char}

/-! ## Splitting -/

theorem lines_of_not_mem (h : '\n' ∉ line) : lines line = [line] :=
  List.splitOn_eq_singleton h

theorem lines_append (u v : List Char) : lines (u ++ '\n' :: v) = lines u ++ lines v :=
  List.splitOn_append_cons_self u v

theorem length_lines (text : List Char) : (lines text).length = text.count '\n' + 1 := by
  induction text with
  | nil => rfl
  | cons c cs ih =>
    rw [lines, List.splitOn_cons_eq_if_modifyHead, List.count_cons]
    by_cases hc : c = '\n'
    · rw [if_pos (by simpa using hc), if_pos (by simpa using hc), List.length_cons, ← lines, ih]
    · rw [if_neg (by simpa using hc), if_neg (by simpa using hc), List.length_modifyHead, ← lines,
        ih, Nat.add_zero]

/-- A text is its first line, and then nothing or a line feed and the other
lines. -/
theorem lines_cases (text : List Char) :
    ∃ line, '\n' ∉ line ∧ ((text = line ∧ lines text = [line]) ∨
      ∃ rest, text = line ++ '\n' :: rest ∧ lines text = line :: lines rest) := by
  have htext := List.takeWhile_append_dropWhile (p := (· != '\n')) (l := text)
  have hline : '\n' ∉ text.takeWhile (· != '\n') := by
    intro hmem
    simpa using List.mem_takeWhile_imp hmem
  refine ⟨text.takeWhile (· != '\n'), hline, ?_⟩
  generalize text.takeWhile (· != '\n') = line at htext hline
  cases hdrop : text.dropWhile (· != '\n') with
  | nil =>
    rw [hdrop, List.append_nil] at htext
    rw [← htext]
    exact .inl ⟨rfl, lines_of_not_mem hline⟩
  | cons c rest =>
    have hfeed : c = '\n' := by
      have := List.head_dropWhile_not (· != '\n') (l := text) (by simp [hdrop])
      simpa [hdrop] using this
    rw [hdrop, hfeed] at htext
    rw [← htext, lines_append, lines_of_not_mem hline]
    exact .inr ⟨rest, rfl, rfl⟩

/-- No line has a line feed. -/
theorem lineFeed_not_mem_of_mem_lines (hline : line ∈ lines text) : '\n' ∉ line := by
  -- the lines after the first are those of a shorter text
  induction hlength : text.length using Nat.strong_induction_on generalizing text with
  | _ length ih =>
    obtain ⟨first, hfirst, ⟨rfl, hlines⟩ | ⟨rest, rfl, hlines⟩⟩ := lines_cases text
    · rw [hlines] at hline
      rwa [List.mem_singleton.1 hline]
    · rw [hlines] at hline
      rcases List.mem_cons.1 hline with rfl | hline
      · exact hfirst
      · have hshorter : rest.length < length := by
          rw [← hlength, List.length_append, List.length_cons]
          omega
        exact ih rest.length hshorter hline rfl

/-- Rows that are each ended by a line feed are the lines of their text, and
an empty line comes after them. -/
theorem lines_flatMap {rows : List (List Char)} (h : ∀ row ∈ rows, '\n' ∉ row) :
    lines (rows.flatMap (· ++ ['\n'])) = rows ++ [[]] := by
  induction rows with
  | nil => rfl
  | cons row rows ih =>
    obtain ⟨hrow, hrows⟩ := List.forall_mem_cons.1 h
    rw [List.flatMap_cons, List.append_assoc, List.singleton_append, lines_append,
      lines_of_not_mem hrow, ih hrows, List.singleton_append, List.cons_append]

theorem takeWhile_append_of_not_mem (h : '\n' ∉ u) (v : List Char) :
    (u ++ v).takeWhile (· != '\n') = u ++ v.takeWhile (· != '\n') := by
  refine List.takeWhile_append_of_pos fun c hc => bne_iff_ne.2 ?_
  rintro rfl
  exact h hc

theorem head?_lines (text : List Char) :
    (lines text)[0]? = some (text.takeWhile (· != '\n')) := by
  obtain ⟨line, hline, ⟨rfl, hlines⟩ | ⟨rest, rfl, hlines⟩⟩ := lines_cases text
  · have htake := takeWhile_append_of_not_mem hline []
    rw [List.append_nil, List.takeWhile_nil, List.append_nil] at htake
    rw [hlines, htake]
    rfl
  · rw [hlines, takeWhile_append_of_not_mem hline, List.takeWhile_cons_of_neg (by simp),
      List.append_nil]
    rfl

/-- The first line is what stands before the first line feed. -/
theorem lines_eq_cons (text : List Char) :
    lines text = text.takeWhile (· != '\n') :: (lines text).tail := by
  have hhead := head?_lines text
  rw [← List.head?_eq_getElem?] at hhead
  obtain ⟨others, hlines⟩ := List.head?_eq_some_iff.1 hhead
  rw [hlines, List.tail_cons]

/-! ## Bytes -/

theorem byteSize_append (u v : List Char) : byteSize (u ++ v) = byteSize u + byteSize v := by
  induction u with
  | nil => exact (Nat.zero_add _).symm
  | cons c u ih => rw [List.cons_append, byteSize, byteSize, ih, Nat.add_assoc]

/-- The first character takes its bytes, and leaves those of the rest. -/
theorem exists_byteSize_cons (c : Char) (u : List Char) :
    ∃ n, byteSize (c :: u) = n + 1 ∧ c.utf8Size ≤ n + 1 ∧ n + 1 - c.utf8Size = byteSize u := by
  obtain ⟨n, hn⟩ : ∃ n, byteSize (c :: u) = n + 1 :=
    Nat.exists_eq_add_one.2 (Nat.add_pos_left c.utf8Size_pos _)
  refine ⟨n, hn, ?_, ?_⟩
  · rw [← hn]
    exact Nat.le_add_right ..
  · rw [← hn, byteSize, Nat.add_sub_cancel_left]

theorem dropBytes?_append (u v : List Char) : dropBytes? (u ++ v) (byteSize u) = some v := by
  induction u with
  | nil => cases v <;> rfl
  | cons c u ih =>
    obtain ⟨n, hn, hle, hrest⟩ := exists_byteSize_cons c u
    rw [hn, List.cons_append, dropBytes?, if_pos hle, hrest, ih]

theorem takeBytes?_append (u v : List Char) : takeBytes? (u ++ v) (byteSize u) = some u := by
  induction u with
  | nil => cases v <;> rfl
  | cons c u ih =>
    obtain ⟨n, hn, hle, hrest⟩ := exists_byteSize_cons c u
    rw [hn, List.cons_append, takeBytes?, if_pos hle, hrest, ih]
    rfl

theorem slice?_append (u v w : List Char) :
    slice? (u ++ (v ++ w)) (byteSize u) (byteSize u + byteSize v) = some v := by
  rw [slice?, if_pos (Nat.le_add_right ..), dropBytes?_append, Option.bind_some,
    Nat.add_sub_cancel_left, takeBytes?_append]

/-! ## The table of lines -/

theorem startsAfterFeeds_of_not_mem (offset : Nat) (h : '\n' ∉ line) :
    startsAfterFeeds offset line = [] := by
  induction line generalizing offset with
  | nil => rfl
  | cons c cs ih =>
    obtain ⟨hc, hcs⟩ := not_or.1 (mt List.mem_cons.2 h)
    rw [startsAfterFeeds, if_neg (Ne.symm hc), ih _ hcs]

theorem startsAfterFeeds_append (offset : Nat) (h : '\n' ∉ line) (v : List Char) :
    startsAfterFeeds offset (line ++ '\n' :: v) =
      (offset + byteSize line + 1) :: startsAfterFeeds (offset + byteSize line + 1) v := by
  induction line generalizing offset with
  | nil => rfl
  | cons c cs ih =>
    obtain ⟨hc, hcs⟩ := not_or.1 (mt List.mem_cons.2 h)
    rw [List.cons_append, startsAfterFeeds, if_neg (Ne.symm hc), ih _ hcs, byteSize,
      Nat.add_assoc offset]

/-- The line that begins at an entry of a table, with its carriage
returns. -/
def lineAt? (text : List Char) (starts : List Nat) (i : Nat) : Option (List Char) :=
  starts[i]?.bind fun start =>
    slice? text start (starts[i + 1]?.elim (byteSize text) fun next => next - 1)

/-- The table from the start of a line on finds the lines from there on. -/
theorem lineAt?_append (i : Nat) (u v : List Char) :
    lineAt? (u ++ v) (byteSize u :: startsAfterFeeds (byteSize u) v) i = (lines v)[i]? := by
  induction i generalizing u v with
  | zero =>
    -- the line ends at the end of the text, or one byte before the next line
    obtain ⟨line, hline, ⟨rfl, hlines⟩ | ⟨rest, rfl, hlines⟩⟩ := lines_cases v
    · have hslice := slice?_append u v []
      rw [List.append_nil, ← byteSize_append] at hslice
      rw [startsAfterFeeds_of_not_mem _ hline, hlines]
      exact hslice
    · rw [startsAfterFeeds_append _ hline, hlines]
      exact slice?_append u line ('\n' :: rest)
  | succ i ih =>
    obtain ⟨line, hline, ⟨rfl, hlines⟩ | ⟨rest, rfl, hlines⟩⟩ := lines_cases v
    · rw [startsAfterFeeds_of_not_mem _ hline, hlines]
      rfl
    · have hrest := ih (u ++ line ++ ['\n']) rest
      have hsize : byteSize (u ++ line ++ ['\n']) = byteSize u + byteSize line + 1 := by
        rw [byteSize_append, byteSize_append]
        rfl
      rw [hsize, List.append_assoc, List.append_assoc, List.singleton_append] at hrest
      rw [startsAfterFeeds_append _ hline, hlines, List.getElem?_cons_succ, ← hrest]
      rfl

theorem length_startsAfterFeeds (offset : Nat) (text : List Char) :
    (startsAfterFeeds offset text).length = text.count '\n' := by
  induction text generalizing offset with
  | nil => rfl
  | cons c cs ih =>
    rw [startsAfterFeeds, List.count_cons]
    by_cases hc : c = '\n'
    · rw [if_pos hc, if_pos (by simpa using hc), List.length_cons, ih]
    · rw [if_neg hc, if_neg (by simpa using hc), ih, Nat.add_zero]

/-! ## Carriage returns -/

theorem trimReturns_sublist (line : List Char) : (trimReturns line).Sublist line := by
  have hdrop := (List.dropWhile_sublist (· == '\r') (l := line.reverse)).reverse
  rwa [List.reverse_reverse] at hdrop

/-- Nothing is trimmed before a character that stays. -/
theorem trimReturns_append (hlast : ∀ c, u.getLast? = some c → c ≠ '\r') (v : List Char) :
    trimReturns (u ++ v) = u ++ trimReturns v := by
  have hkept : u.reverse.dropWhile (· == '\r') = u.reverse := by
    cases hu : u.reverse with
    | nil => rfl
    | cons c cs =>
      have hc : c ≠ '\r' := hlast c (by rw [← List.head?_reverse, hu]; rfl)
      rw [List.dropWhile_cons_of_neg (by simpa using hc)]
  rw [trimReturns, trimReturns, List.reverse_append, List.dropWhile_append]
  split
  · rename_i hnil
    rw [hkept, List.isEmpty_iff.1 hnil, List.reverse_reverse, List.reverse_nil, List.append_nil]
  · rw [List.reverse_append, List.reverse_reverse]

end Text

namespace Source

/-- The line with a number is the one that begins at its entry of the
table. -/
theorem line?_eq_lineAt? (s : Source) (i : Nat) :
    s.line? (i + 1) = (Text.lineAt? s.text s.starts i).map fun line =>
      String.ofList (Text.trimReturns line) := by
  cases hstart : s.starts[i]? with
  | none => simp only [line?, Text.lineAt?, hstart, Option.bind_none, Option.map_none]
  | some start => cases hnext : s.starts[i + 1]? with
    | none => simp only [line?, Text.lineAt?, hstart, hnext, Option.bind_some, Option.elim_none]
    | some next =>
      simp only [line?, Text.lineAt?, hstart, hnext, Option.bind_some, Option.elim_some]

theorem lineAt?_starts (s : Source) (i : Nat) :
    Text.lineAt? s.text s.starts i = (Text.lines s.text)[i]? := by
  rw [s.starts_eq]
  exact Text.lineAt?_append i [] s.text

/-- **The table finds the lines of the split.** -/
theorem line?_succ (s : Source) (i : Nat) :
    s.line? (i + 1) =
      (Text.lines s.text)[i]?.map fun line => String.ofList (Text.trimReturns line) := by
  rw [line?_eq_lineAt?, lineAt?_starts]

theorem lineCount_eq (s : Source) : s.lineCount = (Text.lines s.text).length := by
  rw [lineCount, s.starts_eq, Text.lineStarts, List.length_cons, Text.length_startsAfterFeeds,
    Text.length_lines]

/-- The lines that are found have the numbers from one to their count. -/
theorem isSome_line?_iff {s : Source} {n : Nat} :
    (s.line? n).isSome = true ↔ 1 ≤ n ∧ n ≤ s.lineCount := by
  cases n with
  | zero => simp [line?]
  | succ i =>
    rw [line?_succ, lineCount_eq, Option.isSome_map, isSome_getElem?]
    omega

end Source

end Abacus
