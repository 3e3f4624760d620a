/-!
# Doubles as exact binary fractions

A double-precision number is a sign together with NaN, an infinity, or a fraction
`mantissa * 2 ^ exponent`. Everything this project writes about a number is computed from that
fraction in natural-number arithmetic.
-/

namespace Scriptlet.Decimal

/-- A finite non-negative double, exactly `mantissa * 2 ^ exponent`. -/
structure Binary where
  mantissa : Nat
  exponent : Int
  /-- Whether the next smaller double is only half as far away as the next larger one. -/
  narrowBelow : Bool
  deriving DecidableEq

/-- A double without its sign. -/
inductive Magnitude
  | nan
  | infinite
  | finite (value : Binary)
  deriving DecidableEq

/-- A double taken apart into sign and magnitude. -/
structure Parts where
  negative : Bool
  magnitude : Magnitude
  deriving DecidableEq

/-- Reads sign, exponent and fraction off the bit pattern of a double. -/
def Parts.ofBits (bits : UInt64) : Parts where
  negative := bits >>> 63 == 1
  magnitude :=
    let e := ((bits >>> 52) &&& 0x7FF).toNat
    let f := (bits &&& 0xFFFFFFFFFFFFF).toNat
    if e = 0x7FF then
      if f = 0 then .infinite else .nan
    else if e = 0 then
      .finite ⟨f, -1074, false⟩
    else
      .finite ⟨Nat.pow 2 52 + f, (e : Int) - 1075, decide (f = 0 ∧ 1 < e)⟩

/-- The parts of a double. -/
def Parts.ofFloat (x : Float) : Parts := .ofBits x.toBits

namespace Binary

/-- The value as a natural number, if it has no fractional part. -/
def toNat? (x : Binary) : Option Nat :=
  if 0 ≤ x.exponent then
    some (x.mantissa * Nat.pow 2 x.exponent.toNat)
  else if x.mantissa % Nat.pow 2 (-x.exponent).toNat = 0 then
    some (x.mantissa / Nat.pow 2 (-x.exponent).toNat)
  else
    none

end Binary

end Scriptlet.Decimal
