import Abacus.CommandLine.Session
import Mathlib.Data.List.DropRight
import Mathlib.Data.List.Forall2

/-!
# Sessions

A session is the calculations of its lines, each made as if there were no
other. The lines are those of the input, cut after each line feed, up to the
first that is not UTF-8 or that is empty without the line feeds and carriage
returns at its end. A turn takes up one line and leaves the rest of the input
to the next; it begins with an empty buffer, so nothing of a line is left for
the one after it but what was written.
-/

namespace Abacus.CommandLine

variable {line bytes input : List UInt8} {lines processed rest : List (List UInt8)}
  {text whole : String} {texts : List String} {codec : Json.Codec} {settings : Settings}

/-! ## Bytes of a line -/

/-- A line is decoded to the text that has these bytes in UTF-8. -/
theorem decode?_eq_some_iff : decode? line = some whole ↔ whole.toUTF8.data.toList = line := by
  unfold decode? String.fromUTF8?
  split
  · constructor
    · rintro ⟨⟩
      rfl
    · rintro rfl
      rfl
  · rename_i hinvalid
    constructor
    · rintro ⟨⟩
    · rintro rfl
      exact absurd whole.isValidUTF8 (by simpa using hinvalid)

/-- A line that no text has for its bytes is not UTF-8. -/
theorem decode?_eq_none_iff :
    decode? line = none ↔ ∀ whole : String, whole.toUTF8.data.toList ≠ line := by
  simp only [Option.eq_none_iff_forall_ne_some, ne_eq, decode?_eq_some_iff]

/-! ## Lines -/

/-- Bytes are cut after each line feed. What comes after the last line feed
is a line when it is not empty. -/
inductive LineCut : List UInt8 → List (List UInt8) → Prop
  | nil : LineCut [] []
  | last {line : List UInt8} (ne_nil : line ≠ []) (h : 10 ∉ line) : LineCut line [line]
  | cons {line bytes : List UInt8} {lines : List (List UInt8)} (h : 10 ∉ line)
      (rest : LineCut bytes lines) : LineCut (line ++ 10 :: bytes) ((line ++ [10]) :: lines)

theorem bne_lineFeed (h : 10 ∉ line) : ∀ byte ∈ line, (byte != 10) = true :=
  fun _ hbyte => bne_iff_ne.2 fun heq => h (heq ▸ hbyte)

theorem firstLine_of_not_mem (h : 10 ∉ line) : firstLine line = (line, []) := by
  have hdrop : line.dropWhile (· != 10) = [] := List.dropWhile_eq_nil_iff.2 (bne_lineFeed h)
  simp only [firstLine, hdrop]

theorem firstLine_lineFeed (h : 10 ∉ line) (bytes : List UInt8) :
    firstLine (line ++ 10 :: bytes) = (line ++ [10], bytes) := by
  have hdrop : (line ++ 10 :: bytes).dropWhile (· != 10) = 10 :: bytes := by
    rw [List.dropWhile_append_of_pos (bne_lineFeed h)]
    rfl
  have htake : (line ++ 10 :: bytes).takeWhile (· != 10) = line := by
    rw [List.takeWhile_append_of_pos (bne_lineFeed h)]
    exact List.append_nil line
  simp only [firstLine, hdrop, htake]

/-- The first line of a cut is the one that is read first, and the others
are cut from what is left. -/
theorem LineCut.firstLine_eq (h : LineCut input (line :: lines)) :
    line ≠ [] ∧ ∃ bytes, firstLine input = (line, bytes) ∧ LineCut bytes lines := by
  cases h with
  | last ne_nil h => exact ⟨ne_nil, [], firstLine_of_not_mem h, .nil⟩
  | cons h rest => exact ⟨by simp, _, firstLine_lineFeed h _, rest⟩

/-- A line is cut as it is. -/
theorem LineCut.alone (h : LineCut input (line :: lines)) : LineCut line [line] := by
  cases h with
  | last ne_nil h => exact .last ne_nil h
  | cons h => exact .cons h .nil

theorem LineCut.eq_nil (h : LineCut input []) : input = [] := by
  cases h
  rfl

theorem LineCut.unique {lines' : List (List UInt8)} (h : LineCut input lines)
    (h' : LineCut input lines') : lines = lines' := by
  induction lines generalizing input lines' with
  | nil =>
    obtain rfl := h.eq_nil
    generalize hnil : ([] : List UInt8) = input at h'
    cases h' with
    | nil => rfl
    | last ne_nil => exact absurd hnil.symm ne_nil
    | cons => simp at hnil
  | cons line lines ih =>
    obtain ⟨hne, bytes, hfirst, hrest⟩ := h.firstLine_eq
    cases lines' with
    | nil =>
      obtain rfl := h'.eq_nil
      cases hfirst
      exact absurd rfl hne
    | cons line' lines' =>
      obtain ⟨-, bytes', hfirst', hrest'⟩ := h'.firstLine_eq
      obtain ⟨rfl, rfl⟩ := Prod.mk.inj (hfirst.symm.trans hfirst')
      rw [ih hrest hrest']

/-- **Every input has its lines.** -/
theorem exists_lineCut (input : List UInt8) : ∃ lines, LineCut input lines := by
  -- what follows the first line feed is shorter
  induction hlength : input.length using Nat.strong_induction_on generalizing input with
  | _ length ih =>
    by_cases hfeed : 10 ∈ input
    · obtain ⟨line, bytes, rfl, hline⟩ := List.eq_append_cons_of_mem hfeed
      have hshorter : bytes.length < length := by
        rw [← hlength, List.length_append, List.length_cons]
        omega
      obtain ⟨lines, hlines⟩ := ih _ hshorter bytes rfl
      exact ⟨_, .cons hline hlines⟩
    · by_cases hnil : input = []
      · exact ⟨[], hnil ▸ .nil⟩
      · exact ⟨[input], .last hnil hfeed⟩

/-- What follows a line with a line feed has no part in the cut before it. -/
theorem LineCut.replace (h : LineCut input (processed ++ line :: rest))
    (hfeed : line.getLast? = some 10) (hbytes : LineCut bytes lines) :
    LineCut (processed.flatten ++ line ++ bytes) (processed ++ line :: lines) := by
  induction processed generalizing input with
  | nil =>
    cases h with
    | last _ h => exact absurd (List.mem_of_getLast? hfeed) h
    | cons h =>
      rw [List.flatten_nil, List.nil_append, List.append_assoc]
      exact .cons h hbytes
  | cons first processed ih =>
    generalize hlines : first :: processed ++ line :: rest = whole at h
    cases h with
    | nil => cases hlines
    | last =>
      have := congrArg List.length hlines
      simp at this
    | cons h cut =>
      obtain ⟨rfl, rfl⟩ := List.cons.inj hlines
      have hrest := LineCut.cons h (ih cut)
      simpa using hrest

/-! ## What is left of a line -/

/-- Whether a character is taken off the end of a line. -/
def endsLine (c : Char) : Bool :=
  c == '\n' || c == '\r'

theorem endsLine_iff {c : Char} : endsLine c = true ↔ c = '\n' ∨ c = '\r' := by
  rw [endsLine, Bool.or_eq_true, beq_iff_eq, beq_iff_eq]

theorem trimLineEnd_eq (whole : String) :
    trimLineEnd whole = String.ofList (whole.toList.rdropWhile endsLine) := rfl

/-- A line in UTF-8 is a text, and line feeds and carriage returns after it
that the text itself does not end in. -/
def StripsTo (line : List UInt8) (text : String) : Prop :=
  ∃ (whole : String) (tail : List Char),
    whole.toUTF8.data.toList = line ∧ whole.toList = text.toList ++ tail ∧
    (∀ c ∈ tail, c = '\n' ∨ c = '\r') ∧ ∀ c ∈ text.toList.getLast?, ¬ (c = '\n' ∨ c = '\r')

/-- **What is left of a line** is its text without the line end. -/
theorem stripsTo_iff : StripsTo line text ↔ (decode? line).map trimLineEnd = some text := by
  constructor
  · rintro ⟨whole, tail, hbytes, hwhole, htail, hlast⟩
    have hdecode := decode?_eq_some_iff.2 hbytes
    have hkept : text.toList.rdropWhile endsLine = text.toList := by
      refine List.rdropWhile_eq_self_iff.2 fun hne => ?_
      rw [endsLine_iff]
      exact hlast _ (List.getLast_mem_getLast? hne)
    have hends : ∀ c ∈ tail.reverse, endsLine c = true := fun c hc =>
      endsLine_iff.2 (htail c (List.mem_reverse.1 hc))
    rw [hdecode, Option.map_some, trimLineEnd_eq, hwhole, List.rdropWhile, List.reverse_append,
      List.dropWhile_append_of_pos hends, ← List.rdropWhile, hkept, String.ofList_toList]
  · intro h
    obtain ⟨whole, hdecode, rfl⟩ := Option.map_eq_some_iff.1 h
    refine ⟨whole, whole.toList.rtakeWhile endsLine, decode?_eq_some_iff.1 hdecode, ?_, ?_, ?_⟩
    · rw [trimLineEnd_eq, String.toList_ofList, List.rdropWhile_append_rtakeWhile]
    · exact fun c hc => endsLine_iff.1 (List.mem_rtakeWhile_imp hc)
    · intro c hc
      rw [trimLineEnd_eq, String.toList_ofList] at hc
      rw [← endsLine_iff]
      have hne := List.ne_nil_of_mem (List.mem_of_getLast? hc)
      have hlast := List.rdropWhile_last_not endsLine _ hne
      rwa [List.getLast_of_mem_getLast? hc] at hlast

/-! ## Turns -/

/-- A line that is evaluated, and the text that is left of it. -/
def Evaluated (line : List UInt8) (text : String) : Prop :=
  StripsTo line text ∧ text ≠ ""

theorem Evaluated.ne_nil (h : Evaluated line text) : line ≠ [] := by
  rintro rfl
  obtain ⟨⟨whole, tail, hbytes, hwhole, -, -⟩, hne⟩ := h
  obtain rfl : whole = "" :=
    Option.some.inj ((decode?_eq_some_iff.2 hbytes).symm.trans (decode?_eq_some_iff.2 rfl))
  exact hne (String.toList_eq_nil_iff.1 (List.append_eq_nil_iff.1 hwhole.symm).1)

namespace Console

variable {c next : Console} {left : List UInt8}

theorem turn_of_decode (hline : firstLine c.input = (line, left)) (hne : line ≠ [])
    (hdecode : decode? line = some whole) :
    c.turn codec settings =
      if (trimLineEnd whole).isEmpty then
        (.stops, ⟨left, whole, c.written ++ .onOut prompt⟩)
      else
        (.goesOn, ⟨left, whole,
          c.written ++ .onOut prompt ++ (runOnce codec settings (trimLineEnd whole)).2⟩) := by
  obtain ⟨n, hn⟩ := Nat.exists_eq_succ_of_ne_zero (mt List.length_eq_zero_iff.1 hne)
  simp only [turn, answer, prompted, readLine, clear, write, hline, hdecode, hn,
    String.empty_append]

theorem turn_of_evaluated (hline : firstLine c.input = (line, left)) (h : Evaluated line text) :
    ∃ whole, c.turn codec settings = (.goesOn, ⟨left, whole,
      c.written ++ .onOut prompt ++ (runOnce codec settings text).2⟩) := by
  obtain ⟨whole, hdecode, htrim⟩ := Option.map_eq_some_iff.1 (stripsTo_iff.1 h.1)
  have hsome : ¬ (trimLineEnd whole).isEmpty = true := by
    rw [htrim]
    exact mt String.isEmpty_iff.1 h.2
  refine ⟨whole, ?_⟩
  rw [turn_of_decode hline h.ne_nil hdecode, if_neg hsome, htrim]

theorem turn_of_blank (hline : firstLine c.input = (line, left)) (hne : line ≠ [])
    (h : StripsTo line "") :
    ∃ whole, c.turn codec settings = (.stops, ⟨left, whole, c.written ++ .onOut prompt⟩) := by
  obtain ⟨whole, hdecode, htrim⟩ := Option.map_eq_some_iff.1 (stripsTo_iff.1 h)
  refine ⟨whole, ?_⟩
  rw [turn_of_decode hline hne hdecode, htrim]
  rfl

theorem turn_of_invalid (hline : firstLine c.input = (line, left))
    (h : ∀ whole : String, whole.toUTF8.data.toList ≠ line) :
    c.turn codec settings = (.breaks badInput, ⟨left, "", c.written ++ .onOut prompt⟩) := by
  simp only [turn, answer, prompted, readLine, clear, write, hline, decode?_eq_none_iff.2 h]

theorem turn_of_end (h : c.input = []) :
    c.turn codec settings =
      (.stops, ⟨[], "", c.written ++ .onOut prompt ++ .onOut "\n"⟩) := by
  have hdecode : decode? [] = some "" := decode?_eq_some_iff.2 rfl
  have hline : firstLine [] = ([], []) := rfl
  simp only [turn, answer, prompted, readLine, clear, write, h, hline, hdecode, List.length_nil]
  rfl

/-- **A turn is alone with its line.** It does with the first line what it
would do without the others, whatever the buffer holds, and leaves the others
to the next. -/
theorem exists_turn_eq (hcut : LineCut c.input (line :: lines)) (buffer : String) :
    ∃ left, LineCut left lines ∧ c.turn codec settings =
      let alone := Console.turn codec settings ⟨line, buffer, c.written⟩
      (alone.1, { alone.2 with input := left }) := by
  obtain ⟨hne, left, hline, hrest⟩ := hcut.firstLine_eq
  obtain ⟨-, nothing, halone, -⟩ := hcut.alone.firstLine_eq
  refine ⟨left, hrest, ?_⟩
  cases hdecode : decode? line with
  | none =>
    have hinvalid := decode?_eq_none_iff.1 hdecode
    rw [turn_of_invalid hline hinvalid,
      turn_of_invalid (c := ⟨line, buffer, c.written⟩) halone hinvalid]
  | some whole =>
    rw [turn_of_decode hline hne hdecode,
      turn_of_decode (c := ⟨line, buffer, c.written⟩) halone hne hdecode]
    split <;> rfl

/-! A session goes on from the console that a turn leaves, or ends there. -/

theorem converse_of_goesOn (h : c.turn codec settings = (.goesOn, next)) :
    c.converse codec settings = next.converse codec settings := by
  rw [converse]
  split <;> simp_all

theorem converse_of_stops (h : c.turn codec settings = (.stops, next)) :
    c.converse codec settings = ⟨next.written, none⟩ := by
  rw [converse]
  split <;> simp_all

theorem converse_of_breaks {error : String} (h : c.turn codec settings = (.breaks error, next)) :
    c.converse codec settings = ⟨next.written, some error⟩ := by
  rw [converse]
  split <;> simp_all

end Console

/-! ## Sessions -/

/-- How a session ends where some lines are left: what it writes after its
last prompt, and its error if there is one. -/
inductive Ending : List (List UInt8) → String → Option String → Prop
  /-- No line is left. -/
  | exhausted : Ending [] "\n" none
  /-- The next line has no text. -/
  | blank {line : List UInt8} {rest : List (List UInt8)} (h : StripsTo line "") :
      Ending (line :: rest) "" none
  /-- The next line is not UTF-8. -/
  | invalid {line : List UInt8} {rest : List (List UInt8)}
      (h : ∀ whole : String, whole.toUTF8.data.toList ≠ line) :
      Ending (line :: rest) "" (some badInput)

/-- What is written for some texts, each after a prompt and as if it were
the only one. -/
def writtenFor (codec : Json.Codec) (settings : Settings) (texts : List String) : Written where
  out := String.join (texts.map fun text => prompt ++ (runOnce codec settings text).2.out)
  err := String.join (texts.map fun text => (runOnce codec settings text).2.err)

/-- **The lines of an input are evaluated up to an ending.** -/
theorem exists_ending (lines : List (List UInt8)) :
    ∃ processed texts rest last error?, lines = processed ++ rest ∧
      List.Forall₂ Evaluated processed texts ∧ Ending rest last error? := by
  induction lines with
  | nil => exact ⟨[], [], [], _, _, rfl, .nil, .exhausted⟩
  | cons line lines ih =>
    cases hdecode : decode? line with
    | none => exact ⟨[], [], _, _, _, rfl, .nil, .invalid (decode?_eq_none_iff.1 hdecode)⟩
    | some whole =>
      have hstrips : StripsTo line (trimLineEnd whole) := stripsTo_iff.2 (by rw [hdecode]; rfl)
      by_cases hblank : trimLineEnd whole = ""
      · exact ⟨[], [], _, _, _, rfl, .nil, .blank (hblank ▸ hstrips)⟩
      · obtain ⟨processed, texts, rest, last, error?, rfl, heval, hend⟩ := ih
        exact ⟨line :: processed, _ :: texts, rest, last, error?, rfl,
          .cons ⟨hstrips, hblank⟩ heval, hend⟩

/-- What comes after a line that ends a session has no part in that. -/
theorem Ending.replace {last : String} {error? : Option String}
    (h : Ending (line :: rest) last error?) (lines : List (List UInt8)) :
    Ending (line :: lines) last error? := by
  cases h with
  | blank h => exact .blank h
  | invalid h => exact .invalid h

theorem Written.append_assoc (a b c : Written) : a ++ b ++ c = a ++ (b ++ c) :=
  congrArg₂ Written.mk (String.append_assoc ..) (String.append_assoc ..)

theorem Written.append_none (a : Written) : a ++ .none = a :=
  congrArg₂ Written.mk (String.append_empty ..) (String.append_empty ..)

theorem Written.none_append (a : Written) : .none ++ a = a :=
  congrArg₂ Written.mk (String.empty_append ..) (String.empty_append ..)

theorem writtenFor_cons (codec : Json.Codec) (settings : Settings) (text : String)
    (texts : List String) :
    writtenFor codec settings (text :: texts) =
      .onOut prompt ++ (runOnce codec settings text).2 ++ writtenFor codec settings texts := by
  rw [writtenFor, List.map_cons, List.map_cons, String.join_cons, String.join_cons]
  show _ = Written.mk _ ("" ++ _ ++ _)
  rw [String.empty_append]
  rfl

/-- What a session does where an ending is left. -/
theorem Ending.converse_eq {last : String} {error? : Option String} {c : Console}
    (h : Ending rest last error?) (hcut : LineCut c.input rest) :
    c.converse codec settings = ⟨c.written ++ ⟨prompt ++ last, ""⟩, error?⟩ := by
  have hprompt : (⟨prompt ++ "", ""⟩ : Written) = .onOut prompt := by rw [String.append_empty]; rfl
  cases h with
  | exhausted =>
    rw [Console.converse_of_stops (Console.turn_of_end hcut.eq_nil), Written.append_assoc]
    rfl
  | blank h =>
    obtain ⟨hne, bytes, hline, -⟩ := hcut.firstLine_eq
    obtain ⟨whole, hturn⟩ := Console.turn_of_blank hline hne h
    rw [Console.converse_of_stops hturn, hprompt]
  | invalid h =>
    obtain ⟨-, bytes, hline, -⟩ := hcut.firstLine_eq
    rw [Console.converse_of_breaks (Console.turn_of_invalid hline h), hprompt]

/-- **What some lines write does not depend on the others**, nor on each
other: the session comes to the lines after them with that much more
written. -/
theorem exists_converse_eq {c : Console} (h : List.Forall₂ Evaluated processed texts)
    (hcut : LineCut c.input (processed ++ rest)) :
    ∃ next : Console, LineCut next.input rest ∧
      next.written = c.written ++ writtenFor codec settings texts ∧
      c.converse codec settings = next.converse codec settings := by
  induction h generalizing c with
  | nil => exact ⟨c, hcut, (Written.append_none _).symm, rfl⟩
  | @cons line text processed texts heval _ ih =>
    obtain ⟨-, bytes, hline, hrest⟩ := hcut.firstLine_eq
    obtain ⟨whole, hturn⟩ := Console.turn_of_evaluated hline heval
    obtain ⟨next, hnext, hwritten, heq⟩ := ih (c := ⟨bytes, whole, _⟩) hrest
    refine ⟨next, hnext, ?_, (Console.converse_of_goesOn hturn).trans heq⟩
    rw [hwritten, writtenFor_cons, Written.append_assoc c.written, Written.append_assoc c.written]

/-- A session over lines that are evaluated up to an ending. -/
theorem session_of_ending (codec : Json.Codec) (settings : Settings) {last : String}
    {error? : Option String} (hcut : LineCut input (processed ++ rest))
    (h : List.Forall₂ Evaluated processed texts) (hend : Ending rest last error?) :
    session codec settings input =
      ⟨writtenFor codec settings texts ++ ⟨prompt ++ last, ""⟩, error?⟩ := by
  obtain ⟨next, hnext, hwritten, heq⟩ := exists_converse_eq (c := ⟨input, "", .none⟩) h hcut
  rw [session, heq, hend.converse_eq hnext, hwritten, Written.none_append]

/-- **A session is a sequence of calculations that are independent of each
other.** The input has one cut into lines. Those before the ending are
evaluated, each alone; what the session writes is what these calculations
write, each after a prompt, and then the last prompt with a line feed if no
line is left. There is an error if the next line is not UTF-8, and only then.
After a line that ends the session the input may go on in any way. -/
theorem session_eq (codec : Json.Codec) (settings : Settings) (input : List UInt8) :
    ∃ lines, (∀ cut, LineCut input cut ↔ cut = lines) ∧
      ∃ processed texts rest last error?, lines = processed ++ rest ∧
        List.Forall₂ Evaluated processed texts ∧ Ending rest last error? ∧
        session codec settings input =
          ⟨⟨String.join (texts.map fun text => prompt ++ (runOnce codec settings text).2.out) ++
              prompt ++ last,
            String.join (texts.map fun text => (runOnce codec settings text).2.err)⟩, error?⟩ ∧
        ∀ line after bytes, rest = line :: after → line.getLast? = some 10 →
          session codec settings (processed.flatten ++ line ++ bytes) =
            session codec settings input := by
  obtain ⟨lines, hcut⟩ := exists_lineCut input
  obtain ⟨processed, texts, rest, last, error?, rfl, heval, hend⟩ := exists_ending lines
  have hsession := session_of_ending codec settings hcut heval hend
  refine ⟨_, fun cut => ⟨fun h => h.unique hcut, fun h => h ▸ hcut⟩, processed, texts, rest, last,
    error?, rfl, heval, hend, ?_, ?_⟩
  · rw [hsession, String.append_assoc]
    show Transcript.mk (Written.mk _ (_ ++ "")) _ = _
    rw [String.append_empty]
    rfl
  · rintro line after bytes rfl hfeed
    obtain ⟨others, hothers⟩ := exists_lineCut bytes
    rw [hsession, session_of_ending codec settings (hcut.replace hfeed hothers) heval
      (hend.replace _)]

end Abacus.CommandLine
