import Abacus.Diagnostic.Render
import Abacus.Json.Codec

/-!
# CommandLine — Session

Evaluating one text, and a session that evaluates the lines of an input one
after the other until an empty line. A session is held at a console: the
input that is left, one buffer that takes up each line in turn, and what was
written. Each turn writes the prompt, empties the buffer, takes the next line
off the input and answers it.
-/

namespace Abacus.CommandLine

/-- How texts are evaluated and results written. -/
structure Settings where
  limits : Limits
  json : Bool
deriving DecidableEq

/-- The text written to the output and to the error stream. -/
structure Written where
  out : String
  err : String
deriving DecidableEq

namespace Written

/-- Nothing written. -/
def none : Written := ⟨"", ""⟩

/-- Text on the output only. -/
def onOut (text : String) : Written := ⟨text, ""⟩

/-- One thing written after another. -/
def append (a b : Written) : Written := ⟨a.out ++ b.out, a.err ++ b.err⟩

instance : Append Written := ⟨append⟩

end Written

/-- Evaluates one text: whether there is a number, and what is written. As
JSON both outcomes go to the output; otherwise a fault goes to the error
stream. -/
def runOnce (codec : Json.Codec) (settings : Settings) (text : String) : Bool × Written :=
  if settings.json then
    let report := report text settings.limits
    (report.success, .onOut (codec.text codec.report report ++ "\n"))
  else
    match evaluate text settings.limits with
    | .ok value => (true, .onOut (value.text ++ "\n"))
    | .error diagnostic => (false, ⟨"", diagnostic.render⟩)

/-! ## Lines -/

/-- The bytes up to the first line feed, with it, and the bytes after it. -/
def firstLine (input : List UInt8) : List UInt8 × List UInt8 :=
  match input.dropWhile (· != 10) with
  | [] => (input, [])
  | feed :: rest => (input.takeWhile (· != 10) ++ [feed], rest)

/-- The text of bytes in UTF-8. -/
def decode? (bytes : List UInt8) : Option String :=
  String.fromUTF8? ⟨bytes.toArray⟩

/-- A line without the line feeds and carriage returns at its end. -/
def trimLineEnd (line : String) : String :=
  String.ofList (line.toList.reverse.dropWhile fun c => c == '\n' || c == '\r').reverse

/-! ## The console -/

/-- The prompt before each line. -/
def prompt : String := "expr: "

/-- The wording for an input that is not UTF-8. -/
def badInput : String := "stream did not contain valid UTF-8"

/-- What a session is held at. -/
structure Console where
  /-- The input that was not read yet. -/
  input : List UInt8
  /-- The buffer that a line is read into. -/
  line : String
  written : Written
deriving DecidableEq

/-- What comes after a turn. -/
inductive Turn where
  /-- The next turn. -/
  | goesOn
  /-- Nothing. -/
  | stops
  /-- Nothing, since the input could not be read. -/
  | breaks (error : String)
deriving DecidableEq

namespace Console

/-- Writes to both streams. -/
def write (c : Console) (written : Written) : Console :=
  { c with written := c.written ++ written }

/-- Empties the buffer. -/
def clear (c : Console) : Console :=
  { c with line := "" }

/-- Takes the next line off the input and adds its text to the buffer: how
many bytes it had, none being left to read if there were none. -/
def readLine (c : Console) : Except String Nat × Console :=
  let (bytes, rest) := firstLine c.input
  match decode? bytes with
  | none => (.error badInput, { c with input := rest })
  | some text => (.ok bytes.length, { c with input := rest, line := c.line ++ text })

/-- The beginning of a turn, up to where a line is waited for. -/
def prompted (c : Console) : Console :=
  (c.write (.onOut prompt)).clear

/-- The rest of a turn: reads a line and answers it. -/
def answer (codec : Json.Codec) (settings : Settings) (c : Console) : Turn × Console :=
  match c.readLine with
  | (.error error, c) => (.breaks error, c)
  | (.ok 0, c) => (.stops, c.write (.onOut "\n"))
  | (.ok _, c) =>
    let text := trimLineEnd c.line
    if text.isEmpty then (.stops, c)
    else (.goesOn, c.write (runOnce codec settings text).2)

/-- A turn. -/
def turn (codec : Json.Codec) (settings : Settings) (c : Console) : Turn × Console :=
  c.prompted.answer codec settings

theorem firstLine_append (input : List UInt8) :
    (firstLine input).1 ++ (firstLine input).2 = input := by
  have hwhole := List.takeWhile_append_dropWhile (p := (· != 10)) (l := input)
  unfold firstLine
  split
  · exact List.append_nil input
  · rename_i feed rest hdrop
    rw [hdrop] at hwhole
    simpa using hwhole

/-- A turn that is followed by another one has taken a line off the input. -/
theorem length_input_lt {codec : Json.Codec} {settings : Settings} {c next : Console}
    (h : c.turn codec settings = (.goesOn, next)) : next.input.length < c.input.length := by
  have hlength := congrArg List.length (firstLine_append c.input)
  rw [List.length_append] at hlength
  simp only [turn, answer, prompted, readLine, clear, write] at h
  cases hdecode : decode? (firstLine c.input).1 with
  | none => simp [hdecode] at h
  | some text =>
    rw [hdecode] at h
    cases hbytes : (firstLine c.input).1.length with
    | zero => simp [hbytes] at h
    | succ n =>
      simp only [hbytes] at h
      split at h
      · cases h
      · cases h
        show (firstLine c.input).2.length < _
        omega

end Console

/-! ## Sessions -/

/-- The outcome of a session: what was written, and the error that broke it
off if one did. -/
structure Transcript where
  /-- What was written, up to the error if there is one. -/
  written : Written
  error? : Option String
deriving DecidableEq

/-- Takes turns until one of them is the last. -/
def Console.converse (codec : Json.Codec) (settings : Settings) (c : Console) : Transcript :=
  match _ : c.turn codec settings with
  | (.goesOn, next) => next.converse codec settings
  | (.stops, last) => ⟨last.written, none⟩
  | (.breaks error, last) => ⟨last.written, some error⟩
termination_by c.input.length
decreasing_by exact length_input_lt ‹_›

/-- The session over an input. -/
def session (codec : Json.Codec) (settings : Settings) (input : List UInt8) : Transcript :=
  Console.converse codec settings ⟨input, "", .none⟩

end Abacus.CommandLine
