import Abacus.CommandLine.Program

/-!
# Main

The program on real streams. A session is followed line by line, so that a
prompt is answered as soon as a line is complete.
-/

namespace Abacus.CommandLine

/-- Writes to both streams. -/
def emit (written : Written) : IO Unit := do
  IO.eprint written.err
  IO.print written.out
  (← IO.getStdout).flush

/-- Reads the bytes of one line, its line feed included. -/
partial def readLine (line : ByteArray) : IO ByteArray := do
  let byte ← (← IO.getStdin).read 1
  if byte.isEmpty then return line
  let line := line ++ byte
  if byte.toList = [10] then return line else readLine line

/-- Holds a session on the standard streams and gives the exit code. A turn
is taken at a console whose input is the next line alone; the buffer goes from
turn to turn. -/
partial def hold (codec : Json.Codec) (settings : Settings) (buffer : String) : IO UInt32 := do
  let console := Console.prompted ⟨[], buffer, .none⟩
  emit console.written
  let line ← readLine .empty
  let (turn, console) :=
    { console with input := line.toList, written := .none }.answer codec settings
  emit console.written
  match turn with
  | .goesOn => hold codec settings console.line
  | .stops => return 0
  | .breaks error =>
    emit (brokenNote error)
    return 1

end Abacus.CommandLine

open Abacus Abacus.CommandLine in
/-- Runs the program. -/
def main (arguments : List String) : IO UInt32 := do
  match Options.ofArguments arguments with
  | .ok options =>
    if options.words.isEmpty then return ← hold Json.Codec.standard options.settings ""
  | .error _ => pure ()
  let exit := run Json.Codec.standard arguments []
  emit exit.written
  return UInt32.ofNat exit.code
