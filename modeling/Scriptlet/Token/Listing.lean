import Scriptlet.Decimal.Layout
import Scriptlet.Token.Basic

/-!
# Token listings

The two written forms of a token: a line `KIND lexeme literal`, and a JSON object.
-/

namespace Scriptlet

open Decimal in
/-- Number literals in a listing: a whole number below `2 ^ 63` is written out with `.0`, any other
number in the general style. -/
def Kind.literalText : Kind → String
  | .mark _ => "null"
  | .string contents => contents
  | .number x =>
    match whole? (Nat.pow 2 63) x with
    | some digits => String.ofList (digits ++ ['.', '0'])
    | none => general.write x

/-- The line that lists a token: the name of its kind, its text, and its literal value. -/
def Token.listing (t : Token) : String :=
  t.kind.name ++ " " ++ t.lexeme ++ " " ++ t.kind.literalText

namespace Json

open Decimal in
/-- Numbers in JSON: the fewest digits that identify them, positional from `1e-5` below `1e16` with
`.0` on whole numbers, otherwise with a signed exponent; of two equally near candidates the even
one; there is no number for what is not finite. -/
def numberStyle : Style where
  tie := .toEven
  positional k := -5 ≤ k && k < 16
  wholeEnding := ['.', '0']
  nan := "null"
  infinity := "null"
  minusInfinity := "null"

/-- A hexadecimal digit in lower case. -/
def hexDigit (n : Nat) : Char :=
  if n < 10 then Char.ofNat ('0'.toNat + n) else Char.ofNat ('a'.toNat + (n - 10))

/-- A character inside a JSON string: quote, backslash and control characters are escaped. -/
def escapeChar (c : Char) : List Char :=
  if c = '"' then ['\\', '"']
  else if c = '\\' then ['\\', '\\']
  else if c = '\x08' then ['\\', 'b']
  else if c = '\t' then ['\\', 't']
  else if c = '\n' then ['\\', 'n']
  else if c = '\x0c' then ['\\', 'f']
  else if c = '\r' then ['\\', 'r']
  else if c.toNat < 0x20 then
    ['\\', 'u', '0', '0', hexDigit (c.toNat / 16), hexDigit (c.toNat % 16)]
  else [c]

/-- A JSON string with its quotes. -/
def quoted (s : String) : String :=
  "\"" ++ String.ofList (s.toList.flatMap escapeChar) ++ "\""

end Json

/-- The kind of a token in JSON: its name, or an object from its name to its value. -/
def Kind.json : Kind → String
  | .mark m => Json.quoted m.name
  | .string contents => "\x7b\"STRING\":" ++ Json.quoted contents ++ "\x7d"
  | .number x => "\x7b\"NUMBER\":" ++ Json.numberStyle.write x ++ "\x7d"

/-- The JSON object that lists a token. -/
def Token.json (t : Token) : String :=
  "\x7b\"token_type\":" ++ t.kind.json ++ ",\"lexeme\":" ++ Json.quoted t.lexeme ++
    ",\"line\":" ++ toString t.line ++ "\x7d"

end Scriptlet
