import Abacus.Double.Shortest
import Abacus.Json.Basic

/-!
# Json — Write

The text of a JSON value, without white space. Each function writes in
front of what follows, so a text is built in one pass.
-/

namespace Abacus.Json

/-- A digit of the hexadecimal system, in lower case. -/
def hexDigit (n : Nat) : Char :=
  Nat.digitChar (n % 16)

/-- A character as it stands in a string. -/
def escapeOnto (c : Char) (rest : List Char) : List Char :=
  if c = '"' then '\\' :: '"' :: rest
  else if c = '\\' then '\\' :: '\\' :: rest
  else if c = '\x08' then '\\' :: 'b' :: rest
  else if c = '\t' then '\\' :: 't' :: rest
  else if c = '\n' then '\\' :: 'n' :: rest
  else if c = '\x0c' then '\\' :: 'f' :: rest
  else if c = '\r' then '\\' :: 'r' :: rest
  else if c.toNat < 0x20 then
    '\\' :: 'u' :: '0' :: '0' :: hexDigit (c.toNat / 16) :: hexDigit c.toNat :: rest
  else c :: rest

/-- A string in quotes. -/
def stringOnto (s : String) (rest : List Char) : List Char :=
  '"' :: s.toList.foldr escapeOnto ('"' :: rest)

/-- A whole number. -/
def integerText (n : Int) : List Char :=
  if n < 0 then '-' :: Decimal.digitsOf n.natAbs else Decimal.digitsOf n.natAbs

/-- A positive decimal number: without an exponent while the place of its
first digit is from -5 to 15, and then with at least one place after the
point; else with an exponent that always has a sign. -/
def decimalText (d : Decimal) : List Char :=
  let ds := Decimal.digitsOf d.digits
  let place := d.exponent + ds.length - 1
  if -5 ≤ place ∧ place ≤ 15 then
    if 0 ≤ d.exponent then d.plain ++ ['.', '0'] else d.plain
  else
    let mantissa :=
      match ds with
      | first :: second :: more => first :: '.' :: second :: more
      | few => few
    mantissa ++ 'e' :: (if place < 0 then '-' else '+') :: Decimal.digitsOf place.natAbs

/-- A double: its shortest digits, a tie to the even digit. What is not
finite has no text as a number and is written as `null`. -/
def realText : Double → List Char
  | .finite negative c =>
    let text :=
      if c.val = 0 then ['0', '.', '0'] else decimalText (Double.shortest .even c)
    if negative then '-' :: text else text
  | _ => ['n', 'u', 'l', 'l']

mutual

/-- Writes a value in front of `rest`. -/
def writeOnto : Json → List Char → List Char
  | null, rest | unusable, rest => ['n', 'u', 'l', 'l'] ++ rest
  | bool true, rest => ['t', 'r', 'u', 'e'] ++ rest
  | bool false, rest => ['f', 'a', 'l', 's', 'e'] ++ rest
  | integer value, rest => integerText value ++ rest
  | real value, rest => realText value ++ rest
  | string value, rest => stringOnto value rest
  | array [], rest => '[' :: ']' :: rest
  | array (item :: items), rest => '[' :: writeOnto item (itemsOnto items (']' :: rest))
  | object [], rest => '\x7b' :: '\x7d' :: rest
  | object ((name, value) :: fields), rest =>
    '\x7b' :: stringOnto name (':' :: writeOnto value (fieldsOnto fields ('\x7d' :: rest)))

/-- Writes the items after the first one. -/
def itemsOnto : List Json → List Char → List Char
  | [], rest => rest
  | item :: items, rest => ',' :: writeOnto item (itemsOnto items rest)

/-- Writes the fields after the first one. -/
def fieldsOnto : List (String × Json) → List Char → List Char
  | [], rest => rest
  | (name, value) :: fields, rest =>
    ',' :: stringOnto name (':' :: writeOnto value (fieldsOnto fields rest))

end

/-- The text of a value. -/
def write (j : Json) : String :=
  String.ofList (writeOnto j [])

end Abacus.Json
