import Abacus.CommandLine.Options
import Abacus.CommandLine.Session

/-!
# CommandLine — Program

The whole program as a function: from its arguments and its input to what
it writes and its exit code.
-/

namespace Abacus.CommandLine

/-- The version of the program. -/
def version : String := "0.1.0"

/-- The name the program goes by. -/
def programName : String := "arith"

/-- The help text. -/
def helpText : String :=
  programName ++ " evaluates infix arithmetic over + - * / and parentheses.\n\n" ++
  "Usage: " ++ programName ++ " [OPTIONS] [EXPRESSION]...\n\n" ++
  "Options:\n" ++
  "      --json                 Print results and diagnostics as JSON\n" ++
  "      --max-depth <DEPTH>    Maximum parenthesis nesting depth\n" ++
  "      --max-tokens <TOKENS>  Maximum number of tokens in one expression\n" ++
  "  -h, --help                 Print help\n" ++
  "  -V, --version              Print version\n"

/-- What is said about wrong arguments. -/
def UsageError.message : UsageError → String
  | unknownArgument => "unexpected argument"
  | badValue => "invalid value for an option"
  | missingValue => "a value is required for an option"
  | extraValue => "unexpected value for an option"
  | repeatedOption => "an option cannot be used multiple times"

/-- What the program leaves behind. -/
structure Exit where
  /-- The exit code: 0 for success, 1 for a failed evaluation, 2 for wrong
  arguments. -/
  code : Nat
  written : Written
deriving DecidableEq

/-- The exit when there is nothing to evaluate. -/
def Stop.exit : Stop → Exit
  | help => ⟨0, .onOut helpText⟩
  | version => ⟨0, .onOut (programName ++ " " ++ CommandLine.version ++ "\n")⟩
  | usage error => ⟨2, ⟨"", "error: " ++ error.message ++ "\n"⟩⟩

/-- What is written when the input breaks off. -/
def brokenNote (error : String) : Written :=
  ⟨"", programName ++ ": " ++ error ++ "\n"⟩

/-- The settings that options ask for. -/
def Options.settings (o : Options) : Settings :=
  ⟨o.limits, o.json⟩

/-- The exit after evaluating the words of a command line as one text. -/
def wordsExit (codec : Json.Codec) (o : Options) : Exit :=
  let (success, written) := runOnce codec o.settings (" ".intercalate o.words)
  ⟨if success then 0 else 1, written⟩

/-- The exit after a session. -/
def Transcript.exit (t : Transcript) : Exit :=
  match t.error? with
  | none => ⟨0, t.written⟩
  | some error => ⟨1, t.written ++ brokenNote error⟩

/-- The whole program. -/
def run (codec : Json.Codec) (arguments : List String) (input : List UInt8) : Exit :=
  match Options.ofArguments arguments with
  | .error stop => stop.exit
  | .ok options =>
    if options.words.isEmpty then (session codec options.settings input).exit
    else wordsExit codec options

end Abacus.CommandLine
