import Abacus.Calculation
import Abacus.Proofs.Counters
import Abacus.Proofs.Lexemes

/-!
# Recovery

What a scan yields, lexeme by lexeme. Every lexeme has its place, the good
ones become tokens and the bad ones faults, until there is no room for a
further fault (`taken`). So the tokens and the faults of a scan are parts of
one list of placed lexemes, in the order of the text.
-/

namespace Abacus

namespace Lexeme

/-- The token that a lexeme is. -/
def kind? : Lexeme → Option TokenKind
  | token kind => some kind
  | _ => none

/-- What is wrong with a lexeme. -/
def cause? : Lexeme → Option Cause
  | bad cause => some cause
  | _ => none

/-- The kind of fault that a bad lexeme is: a run is malformed, a character
invalid. -/
def faultKind? : Lexeme → Option FaultKind
  | bad (.malformedNumeral _) => some .malformedExpression
  | bad (.unexpectedCharacter _) => some .invalidCharacter
  | _ => none

theorem Means.map_kind_cause? {run : List Char} {meaning : Lexeme} (h : Means run meaning) :
    meaning.cause?.map Cause.kind = meaning.faultKind? := by
  cases h <;> rfl

/-- No lexeme is the end of the text. -/
theorem kind?_ofRun_ne_end (run : List Char) : (ofRun run).kind? ≠ some .endOfInput := by
  intro h
  cases hrun : ofRun run with
  | token kind =>
    rw [hrun] at h
    cases h
    exact ofRun_ne_end run hrun
  | _ =>
    rw [hrun] at h
    cases h

end Lexeme

namespace Scan

/-- A lexeme and where it begins. -/
structure Placed where
  run : List Char
  start : Position

namespace Placed

/-- What a placed lexeme means. -/
def meaning (x : Placed) : Lexeme :=
  Lexeme.ofRun x.run

/-- From its first character to its last. -/
def span (x : Placed) : Span :=
  spanOf x.start x.run

/-- The token that stands here. -/
def token? (x : Placed) : Option Token :=
  x.meaning.kind?.map fun kind => ⟨kind, x.span⟩

/-- The fault that shows here. -/
def fault? (x : Placed) : Option Fault :=
  x.meaning.cause?.map fun cause => ⟨cause, x.span⟩

end Placed

/-- Lexemes with their places, the first of them at `p`. -/
def placed (p : Position) : List (List Char) → List Placed
  | [] => []
  | run :: rest => ⟨run, p⟩ :: placed (p.after run) rest

/-- The lexemes other than white space that a scan takes while there is
room for faults. -/
def taken (room : Nat) : List Placed → List Placed
  | [] => []
  | x :: rest =>
    match x.meaning, room with
    | .blank, _ => taken room rest
    | _, 0 => []
    | .token _, room + 1 => x :: taken (room + 1) rest
    | .bad _, room + 1 => x :: taken room rest

/-! ## Lexemes that are taken -/

variable {room : Nat} {x : Placed} {xs : List Placed} {kind : TokenKind} {cause : Cause}

theorem Placed.of_blank (h : x.meaning = .blank) : x.token? = none ∧ x.fault? = none := by
  simp [Placed.token?, Placed.fault?, h, Lexeme.kind?, Lexeme.cause?]

theorem Placed.of_token (h : x.meaning = .token kind) :
    x.token? = some ⟨kind, x.span⟩ ∧ x.fault? = none := by
  simp [Placed.token?, Placed.fault?, h, Lexeme.kind?, Lexeme.cause?]

theorem Placed.of_bad (h : x.meaning = .bad cause) :
    x.token? = none ∧ x.fault? = some ⟨cause, x.span⟩ := by
  simp [Placed.token?, Placed.fault?, h, Lexeme.kind?, Lexeme.cause?]

/-- White space is no token. -/
theorem filterMap_token?_filter (xs : List Placed) :
    (xs.filter (·.meaning != .blank)).filterMap Placed.token? = xs.filterMap Placed.token? := by
  rw [List.filterMap_filter]
  refine List.filterMap_congr fun x _ => ?_
  by_cases h : x.meaning = .blank
  · rw [if_neg (by simp [h]), (Placed.of_blank h).1]
  · rw [if_pos (by simpa using h)]

/-- White space is no fault. -/
theorem filterMap_fault?_filter (xs : List Placed) :
    (xs.filter (·.meaning != .blank)).filterMap Placed.fault? = xs.filterMap Placed.fault? := by
  rw [List.filterMap_filter]
  refine List.filterMap_congr fun x _ => ?_
  by_cases h : x.meaning = .blank
  · rw [if_neg (by simp [h]), (Placed.of_blank h).2]
  · rw [if_pos (by simpa using h)]

theorem taken_blank (h : x.meaning = .blank) : taken room (x :: xs) = taken room xs := by
  simp [taken, h]

theorem taken_full (xs : List Placed) : taken 0 xs = [] := by
  induction xs with
  | nil => rfl
  | cons x xs ih => cases h : x.meaning <;> simp [taken, h, ih]

theorem taken_token (h : x.meaning = .token kind) :
    taken (room + 1) (x :: xs) = x :: taken (room + 1) xs := by
  simp [taken, h]

theorem taken_bad (h : x.meaning = .bad cause) :
    taken (room + 1) (x :: xs) = x :: taken room xs := by
  simp [taken, h]

/-- **The first faults are taken**, as many as there is room for. -/
theorem filterMap_fault?_taken (room : Nat) (xs : List Placed) :
    (taken room xs).filterMap Placed.fault? = (xs.filterMap Placed.fault?).take room := by
  induction xs generalizing room with
  | nil => simp [taken]
  | cons x xs ih => cases room with
    | zero => simp [taken_full]
    | succ room => cases h : x.meaning with
      | blank => rw [taken_blank h, List.filterMap_cons_none (Placed.of_blank h).2, ih]
      | token kind =>
        rw [taken_token h, List.filterMap_cons_none (Placed.of_token h).2,
          List.filterMap_cons_none (Placed.of_token h).2, ih]
      | bad cause =>
        rw [taken_bad h, List.filterMap_cons_some (Placed.of_bad h).2,
          List.filterMap_cons_some (Placed.of_bad h).2, ih, List.take_succ_cons]

/-- While there is room all lexemes are taken but the white space. -/
theorem taken_eq_filter (hroom : (xs.filterMap Placed.fault?).length < room) :
    taken room xs = xs.filter (·.meaning != .blank) := by
  induction xs generalizing room with
  | nil => rfl
  | cons x xs ih => cases room with
    | zero => exact absurd hroom (Nat.not_lt_zero _)
    | succ room => cases h : x.meaning with
      | blank =>
        rw [List.filterMap_cons_none (Placed.of_blank h).2] at hroom
        rw [taken_blank h, ih hroom, List.filter_cons_of_neg (by simp [h])]
      | token kind =>
        rw [List.filterMap_cons_none (Placed.of_token h).2] at hroom
        rw [taken_token h, ih hroom, List.filter_cons_of_pos (by simp [h])]
      | bad cause =>
        rw [List.filterMap_cons_some (Placed.of_bad h).2, List.length_cons] at hroom
        rw [taken_bad h, ih (by omega), List.filter_cons_of_pos (by simp [h])]

/-- What is taken is taken in order, and is not white space. -/
theorem taken_sublist (room : Nat) (xs : List Placed) :
    (taken room xs).Sublist (xs.filter (·.meaning != .blank)) := by
  induction xs generalizing room with
  | nil => exact .slnil
  | cons x xs ih => cases room with
    | zero =>
      rw [taken_full]
      exact List.nil_sublist _
    | succ room => cases h : x.meaning with
      | blank =>
        rw [taken_blank h, List.filter_cons_of_neg (by simp [h])]
        exact ih _
      | token kind =>
        rw [taken_token h, List.filter_cons_of_pos (by simp [h])]
        exact (ih _).cons_cons _
      | bad cause =>
        rw [taken_bad h, List.filter_cons_of_pos (by simp [h])]
        exact (ih _).cons_cons _

/-- Where the room ends the last lexeme that is taken is bad, and those
before it are all taken but the white space. -/
theorem exists_taken_eq (hroom : room < (xs.filterMap Placed.fault?).length) :
    ∃ u x v, xs = u ++ x :: v ∧ (∃ cause, x.meaning = .bad cause) ∧
      (u.filterMap Placed.fault?).length = room ∧
      taken (room + 1) xs = u.filter (·.meaning != .blank) ++ [x] := by
  induction xs generalizing room with
  | nil => exact absurd hroom (Nat.not_lt_zero _)
  | cons x xs ih => cases h : x.meaning with
    | blank =>
      rw [List.filterMap_cons_none (Placed.of_blank h).2] at hroom
      obtain ⟨u, y, v, rfl, hbad, hlength, htaken⟩ := ih hroom
      refine ⟨x :: u, y, v, rfl, hbad, ?_, ?_⟩
      · rw [List.filterMap_cons_none (Placed.of_blank h).2, hlength]
      · rw [taken_blank h, htaken, List.filter_cons_of_neg (by simp [h])]
    | token kind =>
      rw [List.filterMap_cons_none (Placed.of_token h).2] at hroom
      obtain ⟨u, y, v, rfl, hbad, hlength, htaken⟩ := ih hroom
      refine ⟨x :: u, y, v, rfl, hbad, ?_, ?_⟩
      · rw [List.filterMap_cons_none (Placed.of_token h).2, hlength]
      · rw [taken_token h, htaken, List.filter_cons_of_pos (by simp [h]), List.cons_append]
    | bad cause =>
      rw [List.filterMap_cons_some (Placed.of_bad h).2, List.length_cons] at hroom
      cases room with
      | zero =>
        refine ⟨[], x, xs, rfl, ⟨cause, h⟩, rfl, ?_⟩
        rw [taken_bad h, taken_full]
        rfl
      | succ room =>
        obtain ⟨u, y, v, rfl, hbad, hlength, htaken⟩ := ih (Nat.lt_of_succ_lt_succ hroom)
        refine ⟨x :: u, y, v, rfl, hbad, ?_, ?_⟩
        · rw [List.filterMap_cons_some (Placed.of_bad h).2, List.length_cons, hlength]
        · rw [taken_bad h, htaken, List.filter_cons_of_pos (by simp [h]), List.cons_append]

/-! ## A scan -/

theorem placed_append (p : Position) (u v : List (List Char)) :
    placed p (u ++ v) = placed p u ++ placed (p.after u.flatten) v := by
  induction u generalizing p with
  | nil => rfl
  | cons run rest ih =>
    rw [List.cons_append, placed, placed, ih, List.flatten_cons, Position.after_append]
    rfl

/-- **A scan takes the lexemes up to the place where it ends**: that is the
end of the text unless the room for faults is used up. Its cursor goes
through these lexemes and no further. -/
theorem exists_collect_eq (room : Nat) (p : Position) (runs : List (List Char)) :
    ∃ u v, runs = u ++ v ∧
      collect room p [] [] runs =
        ⟨(placed p u).filterMap Placed.token? ++ [⟨.endOfInput, .point (p.after u.flatten)⟩],
          (placed p u).filterMap Placed.fault?⟩ ∧
      taken room (placed p runs) = (placed p u).filter (·.meaning != .blank) ∧
      (v ≠ [] → ((placed p u).filterMap Placed.fault?).length = room) ∧
      ∀ tokens faults, (collect? room p tokens faults runs).isSome = true →
        p.Counts u.flatten := by
  -- each bad lexeme takes up room, and the first one without room ends the scan
  induction runs generalizing room p with
  | nil => exact ⟨[], [], rfl, rfl, rfl, fun hne => absurd rfl hne, fun _ _ _ => rfl⟩
  | cons run rest ih =>
    have hafter : ∀ u : List (List Char),
        p.after (run :: u).flatten = (p.after run).after u.flatten := by
      intro u
      rw [List.flatten_cons, Position.after_append]
    have hcounts : ∀ {u : List (List Char)} {next : Position → Option Scan},
        ((p.after? run).bind next).isSome = true →
        ((next (p.after run)).isSome = true → (p.after run).Counts u.flatten) →
        p.Counts (run :: u).flatten := by
      intro u next hsome hrest
      obtain ⟨scan, hscan⟩ := Option.isSome_iff_exists.1 hsome
      obtain ⟨q, hq, hnext⟩ := Option.bind_eq_some_iff.1 hscan
      obtain rfl := Position.eq_after_of_after? hq
      rw [List.flatten_cons, Position.counts_append]
      exact ⟨hq, hrest (Option.isSome_of_eq_some hnext)⟩
    cases hrun : Lexeme.ofRun run with
    | blank =>
      have h : (⟨run, p⟩ : Placed).meaning = .blank := hrun
      obtain ⟨htoken, hfault⟩ := Placed.of_blank h
      obtain ⟨u, v, rfl, hcollect, htaken, hroom, hread⟩ := ih room (p.after run)
      refine ⟨run :: u, v, rfl, ?_, ?_, ?_, fun tokens faults hsome => ?_⟩
      · rw [collect_blank hrun, hcollect, hafter, placed, List.filterMap_cons_none htoken,
          List.filterMap_cons_none hfault]
      · rw [placed, placed, taken_blank h, htaken, List.filter_cons_of_neg (by simp [h])]
      · rwa [placed, List.filterMap_cons_none hfault]
      · rw [collect?_blank hrun] at hsome
        exact hcounts hsome (hread _ _)
    | token kind => cases room with
      | zero =>
        exact ⟨[], run :: rest, rfl, collect_full (by simp [hrun]), taken_full _, fun _ => rfl,
          fun _ _ _ => rfl⟩
      | succ room =>
        have h : (⟨run, p⟩ : Placed).meaning = .token kind := hrun
        obtain ⟨htoken, hfault⟩ := Placed.of_token h
        obtain ⟨u, v, rfl, hcollect, htaken, hroom, hread⟩ := ih (room + 1) (p.after run)
        refine ⟨run :: u, v, rfl, ?_, ?_, ?_, fun tokens faults hsome => ?_⟩
        · rw [collect_token hrun, collect_eq, hcollect, hafter, placed,
            List.filterMap_cons_some htoken, List.filterMap_cons_none hfault]
          rfl
        · rw [placed, placed, taken_token h, htaken, List.filter_cons_of_pos (by simp [h])]
        · rwa [placed, List.filterMap_cons_none hfault]
        · rw [collect?_token hrun] at hsome
          exact hcounts hsome (hread _ _)
    | bad cause => cases room with
      | zero =>
        exact ⟨[], run :: rest, rfl, collect_full (by simp [hrun]), taken_full _, fun _ => rfl,
          fun _ _ _ => rfl⟩
      | succ room =>
        have h : (⟨run, p⟩ : Placed).meaning = .bad cause := hrun
        obtain ⟨htoken, hfault⟩ := Placed.of_bad h
        obtain ⟨u, v, rfl, hcollect, htaken, hroom, hread⟩ := ih room (p.after run)
        refine ⟨run :: u, v, rfl, ?_, ?_, ?_, fun tokens faults hsome => ?_⟩
        · rw [collect_bad hrun, collect_eq, hcollect, hafter, placed,
            List.filterMap_cons_none htoken, List.filterMap_cons_some hfault]
          rfl
        · rw [placed, placed, taken_bad h, htaken, List.filter_cons_of_pos (by simp [h])]
        · intro hne
          rw [placed, List.filterMap_cons_some hfault, List.length_cons, hroom hne]
        · rw [collect?_bad hrun] at hsome
          exact hcounts hsome (hread _ _)

/-- **A scan is the lexemes it takes**, and then the end; as long as there
is room that stands after the whole text. -/
theorem collect_eq_taken (room : Nat) (p : Position) (runs : List (List Char)) :
    ∃ stop, collect room p [] [] runs =
        ⟨(taken room (placed p runs)).filterMap Placed.token? ++ [⟨.endOfInput, .point stop⟩],
          (taken room (placed p runs)).filterMap Placed.fault?⟩ ∧
      (((placed p runs).filterMap Placed.fault?).length < room → stop = p.after runs.flatten) := by
  obtain ⟨u, v, rfl, hcollect, htaken, hroom, -⟩ := exists_collect_eq room p runs
  refine ⟨p.after u.flatten, ?_, ?_⟩
  · rw [hcollect, htaken, filterMap_token?_filter, filterMap_fault?_filter]
  · intro hfew
    by_cases hv : v = []
    · rw [hv, List.append_nil]
    · rw [placed_append, List.filterMap_append, List.length_append, hroom hv] at hfew
      omega

/-- The faults of a text are the first ones that its lexemes show. -/
theorem faults_ofText (text : List Char) :
    (ofText text).faults =
      ((placed .origin (Lexeme.runs text)).filterMap Placed.fault?).take maxFaults := by
  obtain ⟨stop, hscan, -⟩ := collect_eq_taken maxFaults .origin (Lexeme.runs text)
  exact (congrArg Scan.faults hscan).trans (filterMap_fault?_taken ..)

/-- The tokens of a text are the ones that it takes, and then the end. -/
theorem exists_tokens_ofText (text : List Char) :
    ∃ stop, (ofText text).tokens =
      (taken maxFaults (placed .origin (Lexeme.runs text))).filterMap Placed.token? ++
        [⟨.endOfInput, .point stop⟩] := by
  obtain ⟨stop, hscan, -⟩ := collect_eq_taken maxFaults .origin (Lexeme.runs text)
  exact ⟨stop, congrArg Scan.tokens hscan⟩

/-- The tokens of a text, with or without faults: lexemes from its beginning
on, and then the end, which is that of the text when there are no faults. -/
theorem exists_lexemes_ofText (text : List Char) :
    ∃ u v, Lexeme.runs text = u ++ v ∧
      ofText text =
        ⟨(placed .origin u).filterMap Placed.token? ++
            [⟨.endOfInput, .point (Position.origin.after u.flatten)⟩],
          (placed .origin u).filterMap Placed.fault?⟩ ∧
      ((ofText? text).isSome = true → Position.origin.Counts u.flatten) ∧
      ((ofText text).faults = [] → v = []) := by
  obtain ⟨u, v, hruns, hscan, -, hroom, hread⟩ :=
    exists_collect_eq maxFaults .origin (Lexeme.runs text)
  have htext : ofText text = _ := hscan
  refine ⟨u, v, hruns, htext, hread [] [], fun hclean => ?_⟩
  have hnone : (placed .origin u).filterMap Placed.fault? = [] := by rwa [htext] at hclean
  by_contra hne
  have hlength := hroom hne
  rw [hnone] at hlength
  cases hlength

/-! ## Meanings -/

theorem map_meaning_placed (p : Position) (runs : List (List Char)) :
    (placed p runs).map Placed.meaning = runs.map Lexeme.ofRun := by
  induction runs generalizing p with
  | nil => rfl
  | cons run rest ih => rw [placed, List.map_cons, List.map_cons, ih]; rfl

theorem map_kind_filterMap (xs : List Placed) :
    (xs.filterMap Placed.token?).map Token.kind =
      (xs.map Placed.meaning).filterMap Lexeme.kind? := by
  rw [List.map_filterMap, List.filterMap_map]
  refine List.filterMap_congr fun x _ => ?_
  rw [Placed.token?, Option.map_map]
  exact congrFun Option.map_id _

theorem map_cause_filterMap (xs : List Placed) :
    (xs.filterMap Placed.fault?).map Fault.cause =
      (xs.map Placed.meaning).filterMap Lexeme.cause? := by
  rw [List.map_filterMap, List.filterMap_map]
  refine List.filterMap_congr fun x _ => ?_
  rw [Placed.fault?, Option.map_map]
  exact congrFun Option.map_id _

/-- The kinds of fault are those of the bad lexemes. -/
theorem map_kind_filterMap_cause? {runs : List (List Char)}
    (h : ∀ run ∈ runs, Lexeme.IsLexeme run) :
    ((runs.map Lexeme.ofRun).filterMap Lexeme.cause?).map Cause.kind =
      (runs.map Lexeme.ofRun).filterMap Lexeme.faultKind? := by
  rw [List.map_filterMap, List.filterMap_map, List.filterMap_map]
  refine List.filterMap_congr fun run hrun => ?_
  exact ((Lexeme.means_iff (h run hrun)).2 rfl).map_kind_cause?

/-- The tokens are the good lexemes, or those before the last fault that
there is room for. -/
theorem exists_kept (room : Nat) (xs : List Placed) :
    ∃ kept, (taken (room + 1) xs).filterMap Placed.token? = kept.filterMap Placed.token? ∧
      ((xs.filterMap Placed.fault?).length ≤ room → kept = xs) ∧
      (room < (xs.filterMap Placed.fault?).length → ∃ last rest, xs = kept ++ last :: rest ∧
        (∃ cause, last.meaning = .bad cause) ∧ (kept.filterMap Placed.fault?).length = room) := by
  by_cases hroom : room < (xs.filterMap Placed.fault?).length
  · obtain ⟨u, x, v, hxs, ⟨cause, hbad⟩, hlength, htaken⟩ := exists_taken_eq hroom
    refine ⟨u, ?_, fun hfree => by omega, fun _ => ⟨x, v, hxs, ⟨cause, hbad⟩, hlength⟩⟩
    rw [htaken, List.filterMap_append, filterMap_token?_filter,
      List.filterMap_cons_none (Placed.of_bad hbad).1, List.filterMap_nil, List.append_nil]
  · refine ⟨xs, ?_, fun _ => rfl, fun hfull => absurd hfull hroom⟩
    rw [taken_eq_filter (by omega), filterMap_token?_filter]

/-- **A scan is exact.** A text has one cut into lexemes, and each of them
one meaning. The faults are those of the first twenty bad lexemes, in order,
and a log of them keeps all; the tokens are those of the good lexemes, in
order, up to the twentieth bad one if there is one, and then comes the one
end of the text. -/
theorem ofText_exact (source : Source) :
    ∃ runs meanings, (∀ runs', Lexeme.IsCut source.text runs' ↔ runs' = runs) ∧
      (∀ meanings', List.Forall₂ Lexeme.Means runs meanings' ↔ meanings' = meanings) ∧
      let scan := ofText source.text
      let log := DiagnosticLog.ofList (scan.faults.map (Fault.diagnose source))
      let causes := meanings.filterMap Lexeme.cause?
      scan.faults.map Fault.cause = causes.take 20 ∧
      log.stored = scan.faults.map (Fault.diagnose source) ∧
      log.stored.map Diagnostic.kind = (meanings.filterMap Lexeme.faultKind?).take 20 ∧
      log.total = min causes.length 20 ∧
      ∃ kept, scan.tokens.map Token.kind = kept.filterMap Lexeme.kind? ++ [.endOfInput] ∧
        .endOfInput ∉ kept.filterMap Lexeme.kind? ∧
        (causes.length < 20 → kept = meanings) ∧
        (20 ≤ causes.length → ∃ last rest, meanings = kept ++ .bad last :: rest ∧
          (kept.filterMap Lexeme.cause?).length = 19) := by
  have hlexemes : ∀ run ∈ Lexeme.runs source.text, Lexeme.IsLexeme run :=
    fun _ => Lexeme.isLexeme_of_mem_runs
  refine ⟨Lexeme.runs source.text, (Lexeme.runs source.text).map Lexeme.ofRun,
    fun _ => Lexeme.isCut_iff, fun _ => Lexeme.forall₂_means_iff hlexemes, ?_⟩
  intro scan log causes
  obtain ⟨stop, htaken⟩ := exists_tokens_ofText source.text
  have hfaults := faults_ofText source.text
  obtain ⟨kept, hkept, hfree, hfull⟩ :=
    exists_kept 19 (placed .origin (Lexeme.runs source.text))
  have hmeanings := map_meaning_placed .origin (Lexeme.runs source.text)
  generalize placed .origin (Lexeme.runs source.text) = xs at *
  have hcauses : causes = (xs.filterMap Placed.fault?).map Fault.cause := by
    rw [map_cause_filterMap, hmeanings]
  have hlength : causes.length = (xs.filterMap Placed.fault?).length := by
    rw [hcauses, List.length_map]
  have hreported : scan.faults.map Fault.cause = causes.take 20 := by
    rw [hfaults, List.map_take, hcauses]
    rfl
  have htokens : scan.tokens.map Token.kind =
      (kept.map Placed.meaning).filterMap Lexeme.kind? ++ [.endOfInput] := by
    have hends : scan.tokens = (taken 20 xs).filterMap Placed.token? ++ _ := htaken
    rw [hends, hkept, List.map_append, map_kind_filterMap]
    rfl
  have hcount : (scan.faults.map (Fault.diagnose source)).length = min causes.length 20 := by
    rw [List.length_map, hfaults, List.length_take, hlength, Nat.min_comm]
    rfl
  -- the scan stops where the log is full, so the log drops nothing
  have hlog : log = ⟨scan.faults.map (Fault.diagnose source), min causes.length 20⟩ := by
    rw [← hcount]
    exact DiagnosticLog.ofList_of_length_le (hcount ▸ Nat.min_le_right ..)
  refine ⟨hreported, by rw [hlog], ?_, by rw [hlog], kept.map Placed.meaning, htokens, ?_,
    fun hfew => ?_, fun hmany => ?_⟩
  · calc log.stored.map Diagnostic.kind
        = (scan.faults.map Fault.cause).map Cause.kind := by
          rw [hlog, List.map_map, List.map_map]
          rfl
      _ = (causes.map Cause.kind).take 20 := by rw [hreported, List.map_take]
      _ = _ := by rw [map_kind_filterMap_cause? hlexemes]
  · intro hend
    obtain ⟨meaning, hmem, hkind⟩ := List.mem_filterMap.1 hend
    obtain ⟨x, -, rfl⟩ := List.mem_map.1 hmem
    exact Lexeme.kind?_ofRun_ne_end x.run hkind
  · rw [hfree (by omega), hmeanings]
  · obtain ⟨last, rest, rfl, ⟨cause, hbad⟩, hnineteen⟩ := hfull (by omega)
    refine ⟨cause, rest.map Placed.meaning, ?_, ?_⟩
    · rw [← hmeanings, List.map_append, List.map_cons, hbad]
    · rw [← map_cause_filterMap, List.length_map, hnineteen]

end Scan

end Abacus
