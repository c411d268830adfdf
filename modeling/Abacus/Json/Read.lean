import Abacus.Json.Numeral

/-!
# Json — Read

The JSON value that a text stands for. Each reader takes what it reads from
the front of the text and gives back the rest. Values nest, so the readers
of values, items and fields call each other; `fuel` bounds how often, and
twice the length of the text is always enough.
-/

namespace Abacus.Json

/-! ## White space and words -/

/-- Whether a character can stand between the parts of a value. -/
def isSpace (c : Char) : Bool :=
  c == ' ' || c == '\t' || c == '\n' || c == '\r'

/-- The text after the white space at its front. -/
def skipSpace (text : List Char) : List Char :=
  text.dropWhile isSpace

/-- The text after a word that has to be at its front. -/
def afterWord? (word text : List Char) : Option (List Char) :=
  if word.isPrefixOf text then some (text.drop word.length) else none

/-! ## Strings -/

/-- A part of a string: a character, or a code unit of 16 bits that was
written as an escape. -/
inductive Piece where
  | char (c : Char)
  | unit (value : Nat)
deriving DecidableEq

/-- The value of a hexadecimal digit in either case. -/
def hexValue? (c : Char) : Option Nat :=
  if '0' ≤ c ∧ c ≤ '9' then some (c.toNat - 48)
  else if 'a' ≤ c ∧ c ≤ 'f' then some (c.toNat - 87)
  else if 'A' ≤ c ∧ c ≤ 'F' then some (c.toNat - 55)
  else none

/-- The code unit that four hexadecimal digits stand for. -/
def unit? (a b c d : Char) : Option Nat :=
  match hexValue? a, hexValue? b, hexValue? c, hexValue? d with
  | some a, some b, some c, some d => some (((a * 16 + b) * 16 + c) * 16 + d)
  | _, _, _, _ => none

/-- The character that a one-letter escape stands for. -/
def escaped? : Char → Option Char
  | '"' => some '"'
  | '\\' => some '\\'
  | '/' => some '/'
  | 'b' => some '\x08'
  | 'f' => some '\x0c'
  | 'n' => some '\n'
  | 'r' => some '\r'
  | 't' => some '\t'
  | _ => none

/-- The pieces of a string after its opening quote, and the text after its
closing one. -/
def pieces? : List Char → Option (List Piece × List Char)
  | [] => none
  | '"' :: rest => some ([], rest)
  | '\\' :: 'u' :: a :: b :: c :: d :: rest =>
    match unit? a b c d, pieces? rest with
    | some value, some (pieces, rest) => some (.unit value :: pieces, rest)
    | _, _ => none
  | '\\' :: e :: rest =>
    match escaped? e, pieces? rest with
    | some c, some (pieces, rest) => some (.char c :: pieces, rest)
    | _, _ => none
  | c :: rest =>
    if c = '\\' ∨ c.toNat < 0x20 then none
    else
      match pieces? rest with
      | some (pieces, rest) => some (.char c :: pieces, rest)
      | none => none

/-- Whether a code unit is the first of a surrogate pair. -/
def isHigh (value : Nat) : Bool :=
  0xd800 ≤ value && value < 0xdc00

/-- Whether a code unit is the second of a surrogate pair. -/
def isLow (value : Nat) : Bool :=
  0xdc00 ≤ value && value < 0xe000

/-- The characters of a string: two code units that are a surrogate pair
are one character, and half of a pair is none. -/
def chars? : List Piece → Option (List Char)
  | [] => some []
  | .char c :: rest => (chars? rest).map (c :: ·)
  | .unit high :: rest =>
    if isLow high then none
    else if isHigh high then
      match rest with
      | .unit low :: rest =>
        if isLow low then
          (chars? rest).map
            (Char.ofNat (0x10000 + (high - 0xd800) * 0x400 + (low - 0xdc00)) :: ·)
        else none
      | _ => none
    else (chars? rest).map (Char.ofNat high :: ·)

/-- The string after its opening quote, if its characters can be told, and
the text after its closing quote. -/
def string? (text : List Char) : Option (Option String × List Char) :=
  (pieces? text).map fun (pieces, rest) => ((chars? pieces).map String.ofList, rest)

/-! ## Values -/

/-- Whether a character belongs to a number. -/
def isNumberChar (c : Char) : Bool :=
  c.isDigit || c == '-' || c == '+' || c == '.' || c == 'e' || c == 'E'

/-- The number at the front of a text. -/
def number? (text : List Char) : Option (Json × List Char) :=
  let (front, rest) := text.span isNumberChar
  (literal? front).map fun literal => (literal.value, rest)

/-- The object with the given fields, if all their names can be told. -/
def ofFields (fields : List (Option String × Json)) : Json :=
  match fields.mapM fun (name?, value) => name?.map fun name => (name, value) with
  | some fields => .object fields
  | none => unusable

/-- The text after the colon that has to be at its front. -/
def afterColon? (text : List Char) : Option (List Char) :=
  afterWord? [':'] (skipSpace text)

mutual

/-- The value at the front of a text. -/
def value? : Nat → List Char → Option (Json × List Char)
  | 0, _ => none
  | fuel + 1, text =>
    match skipSpace text with
    | '"' :: rest =>
      (string? rest).map fun (s?, rest) =>
        (match s? with | some s => .string s | none => unusable, rest)
    | '[' :: rest =>
      match afterWord? [']'] (skipSpace rest) with
      | some rest => some (.array [], rest)
      | none => (items? fuel rest).map fun (items, rest) => (.array items, rest)
    | '\x7b' :: rest =>
      match afterWord? ['\x7d'] (skipSpace rest) with
      | some rest => some (.object [], rest)
      | none => (fields? fuel rest).map fun (fields, rest) => (ofFields fields, rest)
    | 'n' :: rest => (afterWord? ['u', 'l', 'l'] rest).map fun rest => (null, rest)
    | 't' :: rest => (afterWord? ['r', 'u', 'e'] rest).map fun rest => (.bool true, rest)
    | 'f' :: rest => (afterWord? ['a', 'l', 's', 'e'] rest).map fun rest => (.bool false, rest)
    | rest => number? rest

/-- The items of an array up to its end. -/
def items? : Nat → List Char → Option (List Json × List Char)
  | 0, _ => none
  | fuel + 1, text =>
    match value? fuel text with
    | none => none
    | some (item, rest) =>
      match skipSpace rest with
      | ',' :: rest => (items? fuel rest).map fun (items, rest) => (item :: items, rest)
      | ']' :: rest => some ([item], rest)
      | _ => none

/-- The fields of an object up to its end. -/
def fields? : Nat → List Char → Option (List (Option String × Json) × List Char)
  | 0, _ => none
  | fuel + 1, text =>
    match skipSpace text with
    | '"' :: rest =>
      match string? rest with
      | none => none
      | some (name?, rest) =>
        match (afterColon? rest).bind (value? fuel) with
        | none => none
        | some (value, rest) =>
          match skipSpace rest with
          | ',' :: rest =>
            (fields? fuel rest).map fun (fields, rest) => ((name?, value) :: fields, rest)
          | '\x7d' :: rest => some ([(name?, value)], rest)
          | _ => none
    | _ => none

end

/-- The value a whole text stands for; white space may stand around it. -/
def ofText? (text : List Char) : Option Json :=
  match value? (2 * text.length + 2) text with
  | some (value, rest) => if (skipSpace rest).isEmpty then some value else none
  | none => none

end Abacus.Json
