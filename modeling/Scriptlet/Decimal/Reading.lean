/-!
# Reading decimals

A decimal text denotes a significand and a power of ten; its value is the double nearest to it,
with ties to the even mantissa.
-/

namespace Scriptlet.Decimal

/-- The natural number that a run of decimal digits denotes. -/
def natOfDigits (cs : List Char) : Nat :=
  cs.foldl (fun n c => 10 * n + (c.toNat - '0'.toNat)) 0

/-- The double nearest to the number with the given digits times `10 ^ exponent`. Beyond the range of
doubles the number is not computed: the result is infinite or zero. -/
def nearest (digits : List Char) (exponent : Int) : Float :=
  let significant := digits.dropWhile (· = '0')
  let length : Int := significant.length
  if significant = [] then
    0
  else if 320 < length + exponent then
    1 / 0
  else if length + exponent < -340 then
    0
  else
    Float.ofScientific (natOfDigits significant) (decide (exponent < 0)) exponent.natAbs

/-- The double nearest to an unsigned decimal with the given digits before and after its point. -/
def ofDigits (integer fraction : List Char) : Float :=
  nearest (integer ++ fraction) (-(fraction.length : Int))

/-- Splits off the longest run of decimal digits. -/
def spanDigits (cs : List Char) : List Char × List Char :=
  (cs.takeWhile Char.isDigit, cs.dropWhile Char.isDigit)

/-- Reads the exponent part of a number: nothing, or a mark, an optional sign and digits. -/
def readExponent? : List Char → Option Int
  | [] => some 0
  | mark :: cs =>
    if mark = 'e' ∨ mark = 'E' then
      let (negative, ds) := match cs with
        | '-' :: ds => (true, ds)
        | '+' :: ds => (false, ds)
        | ds => (false, ds)
      if ds ≠ [] ∧ ds.all Char.isDigit then
        some (if negative then -(natOfDigits ds : Int) else natOfDigits ds)
      else
        none
    else
      none

/-- Reads an unsigned number: digits, an optional fraction and an optional exponent. -/
def readUnsigned? (cs : List Char) : Option Float :=
  let (integer, afterInteger) := spanDigits cs
  let (fraction, rest) := match afterInteger with
    | '.' :: more => spanDigits more
    | more => ([], more)
  if integer ++ fraction = [] then
    none
  else
    (readExponent? rest).map fun e =>
      nearest (integer ++ fraction) (e - fraction.length)

/-- Reads a number text: `NaN`, `inf`, or a decimal, the last two with an optional minus sign. -/
def read? (s : String) : Option Float :=
  match s.toList with
  | ['N', 'a', 'N'] => some (0 / 0)
  | '-' :: cs => (unsigned? cs).map (- ·)
  | cs => unsigned? cs
where
  /-- Reads a number text without a sign. -/
  unsigned? : List Char → Option Float
    | ['i', 'n', 'f'] => some (1 / 0)
    | cs => readUnsigned? cs

end Scriptlet.Decimal
