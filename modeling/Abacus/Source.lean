import Abacus.Span

/-!
# Source

A named text and its lines. A table of byte offsets, one for the start of
each line, is made once; a line is cut out of the text between two entries
of the table, without the carriage returns at its end.
-/

namespace Abacus.Text

/-! ## Bytes of a text -/

/-- The number of bytes a text takes in UTF-8. -/
def byteSize : List Char → Nat
  | [] => 0
  | c :: cs => c.utf8Size + byteSize cs

/-- The text after its first `n` bytes; nothing when that is inside a
character or past the end. -/
def dropBytes? : List Char → Nat → Option (List Char)
  | cs, 0 => some cs
  | [], _ + 1 => none
  | c :: cs, n + 1 =>
    if c.utf8Size ≤ n + 1 then dropBytes? cs (n + 1 - c.utf8Size) else none

/-- The first `n` bytes of a text; nothing when they end inside a character
or the text is shorter. -/
def takeBytes? : List Char → Nat → Option (List Char)
  | _, 0 => some []
  | [], _ + 1 => none
  | c :: cs, n + 1 =>
    if c.utf8Size ≤ n + 1 then (takeBytes? cs (n + 1 - c.utf8Size)).map (c :: ·)
    else none

/-- The text between two byte offsets; nothing when they are not in order,
or one of them is not the start of a character or the end of the text. -/
def slice? (text : List Char) (start stop : Nat) : Option (List Char) :=
  if start ≤ stop then
    (dropBytes? text start).bind fun rest => takeBytes? rest (stop - start)
  else none

/-- A line without the carriage returns at its end. -/
def trimReturns (line : List Char) : List Char :=
  (line.reverse.dropWhile (· == '\r')).reverse

/-- The byte offsets just after each line feed of a text that begins at the
given offset. -/
def startsAfterFeeds (offset : Nat) : List Char → List Nat
  | [] => []
  | c :: cs =>
    let next := offset + c.utf8Size
    if c = '\n' then next :: startsAfterFeeds next cs else startsAfterFeeds next cs

/-- The byte offset of the start of each line. -/
def lineStarts (text : List Char) : List Nat :=
  0 :: startsAfterFeeds 0 text

end Abacus.Text

namespace Abacus

/-- A named text with the table of its lines. -/
structure Source where
  /-- The name that errors carry. -/
  name : String
  text : List Char
  /-- The byte offset of the start of each line. -/
  starts : List Nat
  /-- The table belongs to the text. -/
  starts_eq : starts = Text.lineStarts text

namespace Source

/-- The source with a name and a text. -/
def ofString (name text : String) : Source :=
  ⟨name, text.toList, Text.lineStarts text.toList, rfl⟩

/-- The name of a text that does not come from a file. -/
def anonymous : String := "<expr>"

/-- The source of a text without a name of its own. -/
def ofText (text : String) : Source :=
  ofString anonymous text

/-- The number of lines: one more than there are line feeds. -/
def lineCount (s : Source) : Nat :=
  s.starts.length

/-- The line with a number that counts from one. -/
def line? (s : Source) (number : Nat) : Option String :=
  match number with
  | 0 => none
  | i + 1 =>
    match s.starts[i]? with
    | none => none
    | some start =>
      let stop :=
        match s.starts[i + 1]? with
        | some next => next - 1
        | none => Text.byteSize s.text
      (Text.slice? s.text start stop).map fun line => String.ofList (Text.trimReturns line)

end Source

end Abacus
