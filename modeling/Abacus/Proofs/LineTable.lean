import Abacus.Proofs.Lines
import Mathlib.Data.List.DropRight

/-!
# LineTable

Looking up a line by its number. What is between two byte offsets can be
cut out of a text exactly when the offsets are in order and each is that of
a character or of the end, and those that are taken from the table of a
source always are. So a lookup finds every line there is, which is a piece
of the text between line feeds, and never cuts a character or passes the end
of the text on the way.
-/

namespace Abacus

namespace Text

variable {text line kept front rest u : List Char} {n start stop : Nat}

/-! ## Byte offsets -/

theorem byteSize_eq_utf8ByteSize (text : List Char) :
    byteSize text = (String.ofList text).utf8ByteSize := by
  induction text with
  | nil => rfl
  | cons c cs ih =>
    have hcons : String.ofList (c :: cs) = String.singleton c ++ String.ofList cs :=
      String.ofList_cons
    rw [hcons, String.utf8ByteSize_append, String.utf8ByteSize_singleton, byteSize, ih]

theorem eq_nil_of_byteSize_eq_zero (h : byteSize u = 0) : u = [] := by
  cases u with
  | nil => rfl
  | cons c cs =>
    have hpos := c.utf8Size_pos
    rw [byteSize] at h
    omega

/-- A byte offset at which a text can be cut in two: a character begins
there, or the text ends. -/
def IsBoundary (text : List Char) (offset : Nat) : Prop :=
  String.Pos.Raw.IsValid (String.ofList text) ⟨offset⟩

theorem isBoundary_iff : IsBoundary text n ↔ ∃ u v, text = u ++ v ∧ byteSize u = n := by
  rw [IsBoundary, String.Pos.Raw.isValid_iff_exists_append]
  constructor
  · rintro ⟨s, t, htext, hoffset⟩
    refine ⟨s.toList, t.toList, ?_, ?_⟩
    · rw [← String.toList_append, ← htext, String.toList_ofList]
    · rw [byteSize_eq_utf8ByteSize, String.ofList_toList]
      exact (congrArg String.Pos.Raw.byteIdx hoffset).symm
  · rintro ⟨u, v, rfl, rfl⟩
    refine ⟨String.ofList u, String.ofList v, String.ofList_append, ?_⟩
    rw [byteSize_eq_utf8ByteSize]
    rfl

/-! ## Cutting -/

theorem dropBytes?_eq_some_iff :
    dropBytes? text n = some rest ↔ ∃ u, text = u ++ rest ∧ byteSize u = n := by
  constructor
  · intro h
    fun_induction dropBytes? text n with
    | case1 cs =>
      cases h
      exact ⟨[], rfl, rfl⟩
    | case2 => cases h
    | case3 c cs n hle ih =>
      obtain ⟨u, rfl, hsize⟩ := ih h
      refine ⟨c :: u, rfl, ?_⟩
      rw [byteSize, hsize]
      omega
    | case4 => cases h
  · rintro ⟨u, rfl, rfl⟩
    exact dropBytes?_append u rest

theorem takeBytes?_eq_some_iff :
    takeBytes? text n = some front ↔ ∃ v, text = front ++ v ∧ byteSize front = n := by
  constructor
  · intro h
    fun_induction takeBytes? text n generalizing front with
    | case1 cs =>
      cases h
      exact ⟨cs, rfl, rfl⟩
    | case2 => cases h
    | case3 c cs n hle ih =>
      obtain ⟨front, hfront, rfl⟩ := Option.map_eq_some_iff.1 h
      obtain ⟨v, rfl, hsize⟩ := ih hfront
      refine ⟨v, rfl, ?_⟩
      rw [byteSize, hsize]
      omega
    | case4 => cases h
  · rintro ⟨v, rfl, rfl⟩
    exact takeBytes?_append front v

/-- **What is cut out of a text** begins and ends at the offsets. -/
theorem slice?_eq_some_iff :
    slice? text start stop = some line ↔
      ∃ u v, text = u ++ (line ++ v) ∧ byteSize u = start ∧ byteSize u + byteSize line = stop := by
  constructor
  · intro h
    unfold slice? at h
    split at h
    · rename_i hle
      obtain ⟨rest, hdrop, htake⟩ := Option.bind_eq_some_iff.1 h
      obtain ⟨u, rfl, hstart⟩ := dropBytes?_eq_some_iff.1 hdrop
      obtain ⟨v, rfl, hsize⟩ := takeBytes?_eq_some_iff.1 htake
      refine ⟨u, v, rfl, hstart, ?_⟩
      omega
    · cases h
  · rintro ⟨u, v, rfl, rfl, rfl⟩
    exact slice?_append u line v

/-- What is between two byte offsets is a stretch of the text: they are in
order, not past its end, and neither is inside a character. -/
structure Sliceable (text : List Char) (start stop : Nat) : Prop where
  ordered : start ≤ stop
  within : stop ≤ (String.ofList text).utf8ByteSize
  start : IsBoundary text start
  stop : IsBoundary text stop

/-- **What can be cut out of a text** is what is between two boundaries in
order. -/
theorem isSome_slice?_iff :
    (slice? text start stop).isSome = true ↔ Sliceable text start stop := by
  rw [Option.isSome_iff_exists]
  constructor
  · rintro ⟨line, h⟩
    obtain ⟨u, v, rfl, hstart, hstop⟩ := slice?_eq_some_iff.1 h
    refine ⟨by omega, ?_, isBoundary_iff.2 ⟨u, line ++ v, rfl, hstart⟩,
      isBoundary_iff.2 ⟨u ++ line, v, (List.append_assoc ..).symm, ?_⟩⟩
    · rw [← byteSize_eq_utf8ByteSize, byteSize_append, byteSize_append]
      omega
    · rw [byteSize_append, hstop]
  · intro h
    obtain ⟨u, v, rfl, hstart⟩ := isBoundary_iff.1 h.start
    obtain ⟨u', v', htext, hstop⟩ := isBoundary_iff.1 h.stop
    have hle := h.ordered
    -- the cut at the start is no later than the one at the end
    rcases List.append_eq_append_iff.1 htext with ⟨line, rfl, rfl⟩ | ⟨line, rfl, rfl⟩
    · rw [byteSize_append] at hstop
      exact ⟨line, slice?_eq_some_iff.2 ⟨u, v', rfl, hstart, hstop⟩⟩
    · rw [byteSize_append] at hstart
      obtain rfl := eq_nil_of_byteSize_eq_zero (show byteSize line = 0 by omega)
      refine ⟨[], slice?_eq_some_iff.2 ⟨u' ++ [], v, rfl, ?_, ?_⟩⟩
      · rw [byteSize_append]
        exact hstart
      · rw [List.append_nil]
        exact hstop

/-! ## Carriage returns -/

/-- A line and what is left of it without the carriage returns at its
end. -/
structure TrimsTo (line kept : List Char) : Prop where
  returns : ∃ k, line = kept ++ List.replicate k '\r'
  last : kept.getLast? ≠ some '\r'

theorem trimReturns_replicate (k : Nat) : trimReturns (List.replicate k '\r') = [] := by
  rw [trimReturns, List.reverse_replicate, List.dropWhile_replicate]
  rfl

/-- **What is left of a line** is the line without all carriage returns at
its end. -/
theorem trimsTo_iff : TrimsTo line kept ↔ trimReturns line = kept := by
  constructor
  · rintro ⟨⟨k, rfl⟩, hlast⟩
    have hends : ∀ c, kept.getLast? = some c → c ≠ '\r' := by
      rintro c hc rfl
      exact hlast hc
    rw [trimReturns_append hends, trimReturns_replicate, List.append_nil]
  · rintro rfl
    have htrim : trimReturns line = line.rdropWhile (· == '\r') := rfl
    rw [htrim]
    constructor
    · refine ⟨(line.rtakeWhile (· == '\r')).length, ?_⟩
      have hreturns : line.rtakeWhile (· == '\r') = List.replicate _ '\r' :=
        List.eq_replicate_of_mem fun c hc => by simpa using List.mem_rtakeWhile_imp hc
      rw [← hreturns, List.rdropWhile_append_rtakeWhile]
    · intro hlast
      have hne := List.ne_nil_of_mem (List.mem_of_getLast? hlast)
      have hkept := List.rdropWhile_last_not (· == '\r') line hne
      rw [List.getLast_of_mem_getLast? hlast] at hkept
      exact hkept rfl

end Text

namespace Source

variable {s : Source} {number start stop : Nat}

/-! ## Lookups -/

/-- The byte offsets between which the line with a number is cut out, if the
table has an entry for it. -/
def bounds? (s : Source) : Nat → Option (Nat × Nat)
  | 0 => none
  | i + 1 => s.starts[i]?.map fun start =>
    (start, s.starts[i + 1]?.elim (Text.byteSize s.text) fun next => next - 1)

theorem isSome_bounds?_iff :
    (s.bounds? number).isSome = true ↔ 1 ≤ number ∧ number ≤ s.lineCount := by
  cases number with
  | zero => simp [bounds?]
  | succ i =>
    simp only [bounds?, lineCount, Option.isSome_map, isSome_getElem?]
    omega

theorem lineAt?_eq_slice? (s : Source) (i : Nat) :
    Text.lineAt? s.text s.starts i =
      (s.bounds? (i + 1)).bind fun bounds => Text.slice? s.text bounds.1 bounds.2 := by
  rw [Text.lineAt?, bounds?, Option.bind_map]
  rfl

/-- A lookup cuts the text at the offsets that it takes from the table, and
nowhere else. -/
theorem line?_eq_slice? (s : Source) (number : Nat) :
    s.line? number = (s.bounds? number).bind fun bounds =>
      (Text.slice? s.text bounds.1 bounds.2).map fun line =>
        String.ofList (Text.trimReturns line) := by
  cases number with
  | zero => rfl
  | succ i => rw [line?_eq_lineAt?, lineAt?_eq_slice?, Option.map_bind]; rfl

/-- **The table is sound**: the text can be cut at the offsets it gives. -/
theorem sliceable_of_bounds? (h : s.bounds? number = some (start, stop)) :
    Text.Sliceable s.text start stop := by
  have hbounds : 1 ≤ number ∧ number ≤ s.lineCount := by
    rw [← isSome_bounds?_iff, h]
    rfl
  obtain ⟨i, rfl⟩ : ∃ i, number = i + 1 := ⟨number - 1, by omega⟩
  have hlines : i < (Text.lines s.text).length := by
    rw [← lineCount_eq]
    omega
  -- what is cut out there is a line of the split
  have hslice : Text.slice? s.text start stop = some (Text.lines s.text)[i] := by
    have hline := s.lineAt?_starts i
    rwa [lineAt?_eq_slice?, h, Option.bind_some, List.getElem?_eq_getElem hlines] at hline
  rw [← Text.isSome_slice?_iff, hslice]
  rfl

/-- **Looking up lines agrees with splitting.** There is one line more than
there are line feeds. A lookup cuts the text at two offsets of the table at
most, between which there is always a stretch of the text. For a number from
one to the number of lines it finds the piece of that number among those
between line feeds, without all the carriage returns at its end; for any
other number it finds nothing, and cuts nowhere. -/
theorem line?_exact (s : Source) :
    s.lineCount = s.text.count '\n' + 1 ∧ ∀ number,
      (s.line? number = (s.bounds? number).bind fun bounds =>
        (Text.slice? s.text bounds.1 bounds.2).map fun line =>
          String.ofList (Text.trimReturns line)) ∧
      (∀ start stop, s.bounds? number = some (start, stop) →
        Text.Sliceable s.text start stop) ∧
      (1 ≤ number ∧ number ≤ s.lineCount → ∃ piece kept,
        (s.text.splitOn '\n')[number - 1]? = some piece ∧ Text.TrimsTo piece kept ∧
        s.line? number = some (String.ofList kept)) ∧
      (¬ (1 ≤ number ∧ number ≤ s.lineCount) →
        s.bounds? number = none ∧ s.line? number = none) := by
  refine ⟨?_, ?_⟩
  · rw [lineCount_eq, Text.length_lines]
  · intro number
    refine ⟨s.line?_eq_slice? number, fun start stop h => sliceable_of_bounds? h, ?_, ?_⟩
    · rintro ⟨hpos, hle⟩
      obtain ⟨i, rfl⟩ : ∃ i, number = i + 1 := ⟨number - 1, by omega⟩
      rw [lineCount_eq] at hle
      have hpiece : (Text.lines s.text)[i]? = some (Text.lines s.text)[i] :=
        List.getElem?_eq_getElem hle
      refine ⟨(Text.lines s.text)[i], _, hpiece, Text.trimsTo_iff.2 rfl, ?_⟩
      rw [line?_succ, hpiece, Option.map_some]
    · intro hnone
      have hbounds : s.bounds? number = none := by
        rwa [← isSome_bounds?_iff, Option.not_isSome_iff_eq_none] at hnone
      rw [line?_eq_slice?, hbounds]
      exact ⟨rfl, rfl⟩

/-- A character of two bytes in the third line, carriage returns in the
first, and nothing in the second and the last, after which there is none. -/
theorem line?_exact_multibyte :
    let s : Source := .ofText "1+\r\r\n\n×\n"
    s.bounds? 3 = some (6, 8) ∧ Text.Sliceable s.text 6 8 ∧
      (∃ piece kept, (s.text.splitOn '\n')[0]? = some piece ∧ Text.TrimsTo piece kept ∧
        s.line? 1 = some (String.ofList kept) ∧ kept = ['1', '+']) ∧
      s.bounds? 5 = none ∧ s.line? 5 = none := by
  intro s
  have hbounds : s.bounds? 3 = some (6, 8) := by decide
  have hline : s.line? 1 = some "1+" := by decide
  obtain ⟨piece, kept, hpiece, htrims, hfound⟩ := ((line?_exact s).2 1).2.2.1 (by decide)
  refine ⟨hbounds, ((line?_exact s).2 3).2.1 6 8 hbounds,
    ⟨piece, kept, hpiece, htrims, hfound, ?_⟩, ((line?_exact s).2 5).2.2.2 (by decide)⟩
  rw [hline, Option.some.injEq] at hfound
  exact (String.ofList_injective hfound).symm

end Source

end Abacus
