import Abacus.Limits
import Abacus.Numeral

/-!
# CommandLine — Options

What the arguments of the program ask for. Options may stand between the
words of the expression; after `--` everything is a word. An option that
takes a number holds its argument back until the next one shows that it is
complete, so an argument that is not known at all is reported before a
number that cannot be read.
-/

namespace Abacus.CommandLine

/-- What the arguments ask for. -/
structure Options where
  json : Bool
  /-- The limit on nesting, when given. -/
  maxDepth? : Option Nat
  /-- The limit on the number of tokens, when given. -/
  maxTokens? : Option Nat
  words : List String
deriving DecidableEq

/-- What is wrong with the arguments. -/
inductive UsageError where
  | unknownArgument
  /-- A value that is not a number in the range of its option. -/
  | badValue
  | missingValue
  | extraValue
  | repeatedOption
deriving DecidableEq

/-- Why arguments give no options. -/
inductive Stop where
  | help
  | version
  | usage (error : UsageError)
deriving DecidableEq

/-- The options that take a number. -/
inductive Bound where
  | depth
  | tokens
deriving DecidableEq

/-- The options that take nothing. -/
inductive Switch where
  | json
  | help
  | version
deriving DecidableEq

namespace Bound

/-- The largest number the option takes; the smallest is one. -/
def largest : Bound → Nat
  | depth => Limits.depthCeiling
  | tokens => Limits.tokenCeiling

/-- The number a value stands for, if the option takes it: digits, with or
without a `+`. -/
def number? (b : Bound) (value : String) : Option Nat :=
  let digits :=
    match value.toList with
    | '+' :: digits => digits
    | digits => digits
  let n := Numeral.natOf digits
  if Numeral.isDigits digits ∧ 1 ≤ n ∧ n ≤ b.largest then some n else none

/-- The number that an option was given. -/
def given? (b : Bound) (o : Options) : Option Nat :=
  match b with
  | depth => o.maxDepth?
  | tokens => o.maxTokens?

/-- Gives an option a number. -/
def give (b : Bound) (o : Options) (n : Nat) : Options :=
  match b with
  | depth => { o with maxDepth? := some n }
  | tokens => { o with maxTokens? := some n }

/-- Gives an option its value. -/
def set (b : Bound) (o : Options) (value : String) : Except Stop Options :=
  if (b.given? o).isSome then .error (.usage .repeatedOption)
  else
    match b.number? value with
    | some n => .ok (b.give o n)
    | none => .error (.usage .badValue)

end Bound

/-- How far the arguments have been read. -/
structure Reading where
  /-- What has been asked for so far. -/
  options : Options
  /-- An option that takes a number, and the argument it may have found. -/
  waiting? : Option (Bound × Option String)
  /-- Whether only words can follow. -/
  wordsOnly : Bool

namespace Reading

/-- Nothing read. -/
def start : Reading := ⟨⟨false, none, none, []⟩, none, false⟩

/-- Gives the waiting option its value. -/
def settle (r : Reading) : Except Stop Reading :=
  match r.waiting? with
  | none => .ok r
  | some (_, none) => .error (.usage .missingValue)
  | some (b, some value) => do
    let options ← b.set r.options value
    .ok { r with options := options, waiting? := none }

/-- Reads a word of the expression. -/
def word (r : Reading) (text : String) : Except Stop Reading := do
  let r ← r.settle
  .ok { r with options := { r.options with words := r.options.words ++ [text] } }

/-- Reads an option that takes nothing. -/
def switch (r : Reading) (s : Switch) : Except Stop Reading := do
  let r ← r.settle
  match s with
  | .help => .error .help
  | .version => .error .version
  | .json =>
    if r.options.json then .error (.usage .repeatedOption)
    else .ok { r with options := { r.options with json := true } }

/-- Reads an option that takes a number, which may be attached to it. -/
def bound (r : Reading) (b : Bound) (attached? : Option String) : Except Stop Reading := do
  let r ← r.settle
  match attached? with
  | none => .ok { r with waiting? := some (b, none) }
  | some value =>
    let options ← b.set r.options value
    .ok { r with options := options }

/-- Reads an option with a long name, with what is attached to it. -/
def long (r : Reading) (name : String) (attached? : Option String) : Except Stop Reading :=
  let flag := fun s =>
    if attached?.isSome then .error (.usage .extraValue) else r.switch s
  if name = "json" then flag .json
  else if name = "help" then flag .help
  else if name = "version" then flag .version
  else if name = "max-depth" then r.bound .depth attached?
  else if name = "max-tokens" then r.bound .tokens attached?
  else .error (.usage .unknownArgument)

/-- Reads an option of one letter. -/
def short (r : Reading) (letter : Char) : Except Stop Reading :=
  if letter = 'h' then r.switch .help
  else if letter = 'V' then r.switch .version
  else .error (.usage .unknownArgument)

/-- The name before the first `=`, and what is attached after it. -/
def splitName (text : List Char) : String × Option String :=
  match text.span (· != '=') with
  | (name, []) => (String.ofList name, none)
  | (name, _ :: attached) => (String.ofList name, some (String.ofList attached))

/-- Reads one argument. -/
def step (r : Reading) (argument : String) : Except Stop Reading :=
  if r.wordsOnly then r.word argument
  else
    match argument.toList with
    | ['-', '-'] => .ok { r with wordsOnly := true }
    | '-' :: '-' :: rest =>
      let (name, attached?) := splitName rest
      r.long name attached?
    | '-' :: letter :: _ => r.short letter
    | _ =>
      match r.waiting? with
      | some (b, none) => .ok { r with waiting? := some (b, some argument) }
      | _ => r.word argument

end Reading

namespace Options

/-- Reads the arguments of the program. -/
def ofArguments (arguments : List String) : Except Stop Options := do
  let r ← arguments.foldlM Reading.step .start
  let r ← r.settle
  .ok r.options

/-- The limits that the options ask for. -/
def limits (o : Options) : Limits :=
  { Limits.standard with
    maxDepth := o.maxDepth?.getD Limits.standard.maxDepth
    maxTokens := o.maxTokens?.getD Limits.standard.maxTokens }

end Options

end Abacus.CommandLine
