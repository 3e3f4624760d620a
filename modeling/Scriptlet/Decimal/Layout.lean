import Scriptlet.Decimal.Shortest

/-!
# Numbers as text

A `Style` records the decisions that are left once the digits are chosen: the tie between two
equally near candidates, the range of positional writing, and the words for what is not finite.
-/

namespace Scriptlet.Decimal

/-- The decimal digits of a natural number. -/
def numeral (n : Nat) : List Char := Nat.toDigits 10 n

/-- How a number is written. -/
structure Style where
  tie : Tie
  /-- Whether a number whose leading digit stands for `10 ^ k` is written without an exponent. -/
  positional : Int → Bool
  /-- What follows the digits of a positional number without a fraction. -/
  wholeEnding : List Char
  nan : String
  infinity : String
  minusInfinity : String

/-- Digits with the point in its place and no exponent. -/
def plain (ending : List Char) (digits : List Char) (exponent : Int) : List Char :=
  if 0 ≤ exponent then
    digits ++ List.replicate exponent.toNat '0' ++ ending
  else
    let places := (-exponent).toNat
    if places < digits.length then
      digits.take (digits.length - places) ++ '.' :: digits.drop (digits.length - places)
    else
      '0' :: '.' :: List.replicate (places - digits.length) '0' ++ digits

/-- One digit before the point, and an exponent with its sign. -/
def scientific (digits : List Char) (leading : Int) : List Char :=
  let fraction := match digits.drop 1 with
    | [] => []
    | ds => '.' :: ds
  digits.take 1 ++ fraction ++ 'e' :: (if leading < 0 then '-' else '+') :: numeral leading.natAbs

namespace Style

/-- The text of a finite magnitude. -/
def finite (s : Style) (x : Binary) : List Char :=
  let d := x.shortest s.tie
  let digits := numeral d.significand
  let leading := d.exponent + digits.length - 1
  if s.positional leading then plain s.wholeEnding digits d.exponent else scientific digits leading

/-- The text of a number. -/
def write (s : Style) (x : Float) : String :=
  match Parts.ofFloat x with
  | ⟨_, .nan⟩ => s.nan
  | ⟨false, .infinite⟩ => s.infinity
  | ⟨true, .infinite⟩ => s.minusInfinity
  | ⟨false, .finite v⟩ => String.ofList (s.finite v)
  | ⟨true, .finite v⟩ => String.ofList ('-' :: s.finite v)

end Style

/-- Numbers are written with the fewest digits that identify them and never with an exponent; of two
equally near candidates the larger is taken. -/
def general : Style where
  tie := .away
  positional _ := true
  wholeEnding := []
  nan := "NaN"
  infinity := "inf"
  minusInfinity := "-inf"

/-- A whole number below `bound` in magnitude, with its sign; zero has none. -/
def whole? (bound : Nat) (x : Float) : Option (List Char) :=
  match Parts.ofFloat x with
  | ⟨negative, .finite v⟩ =>
    match v.toNat? with
    | some n =>
      if n < bound then
        some (if negative ∧ n ≠ 0 then '-' :: numeral n else numeral n)
      else
        none
    | none => none
  | _ => none

/-- The text of a number as scripts see it: whole numbers below `10 ^ 15` without a fraction and
without a sign on zero, any other number in the general style. -/
def numberText (x : Float) : String :=
  match whole? (Nat.pow 10 15) x with
  | some digits => String.ofList digits
  | none => general.write x

end Scriptlet.Decimal
