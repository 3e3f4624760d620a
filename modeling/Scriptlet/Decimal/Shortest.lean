import Scriptlet.Decimal.Binary

/-!
# The fewest decimal digits that read back

`Binary.shortest` selects, among the decimals that round to a given double, one with the fewest
digits, and of those the nearest. The search goes through the grids `10 ^ e` from coarse to fine
and tests, on each, the two neighbours of the value. Only an exact tie between the two is open;
it is settled by a `Tie`.
-/

namespace Scriptlet.Decimal

/-- The decimal `significand * 10 ^ exponent`. -/
structure Digits where
  significand : Nat
  exponent : Int
  deriving DecidableEq

/-- Which of two equally near candidates is taken. -/
inductive Tie
  | toEven
  | away
  deriving DecidableEq

/-- The smaller or the larger of two neighbours `n` and `n + 1`. -/
def Tie.pick : Tie → Nat → Nat
  | .toEven, n => if n % 2 = 0 then n else n + 1
  | .away, n => n + 1

/-- A common scale for a double and a decimal grid: the sizes of a grid step and of a quarter of
the gap above the double, both as natural numbers. -/
structure Grid where
  step : Nat
  quarter : Nat

namespace Binary

/-- The common scale of `x` and the multiples of `10 ^ e`. -/
def grid (x : Binary) (e : Int) : Grid where
  step := Nat.pow 10 e.toNat * Nat.pow 2 (2 - x.exponent).toNat
  quarter := Nat.pow 2 (x.exponent - 2).toNat * Nat.pow 10 (-e).toNat

/-- Whether `c` steps of the grid round to `x`: they lie between the midpoints to the neighbours of
`x`, and may be such a midpoint only if the mantissa of `x` is even. -/
def readsBack (x : Binary) (g : Grid) (c : Nat) : Bool :=
  let low := (4 * x.mantissa - if x.narrowBelow then 1 else 2) * g.quarter
  let high := (4 * x.mantissa + 2) * g.quarter
  let point := c * g.step
  if x.mantissa % 2 = 0 then
    decide (low ≤ point ∧ point ≤ high)
  else
    decide (low < point ∧ point < high)

/-- The neighbour of `x` on the grid `10 ^ e` that reads back and is nearest, if one reads back. -/
def onGrid? (tie : Tie) (x : Binary) (e : Int) : Option Digits :=
  let g := x.grid e
  let value := 4 * x.mantissa * g.quarter
  let below := value / g.step
  match x.readsBack g below, x.readsBack g (below + 1) with
  | false, false => none
  | true, false => some ⟨below, e⟩
  | false, true => some ⟨below + 1, e⟩
  | true, true =>
    match compare (2 * value) ((2 * below + 1) * g.step) with
    | .lt => some ⟨below, e⟩
    | .gt => some ⟨below + 1, e⟩
    | .eq => some ⟨tie.pick below, e⟩

/-- Whether `x` is below `10 ^ k`. -/
def belowPower (x : Binary) (k : Int) : Bool :=
  decide (4 * x.mantissa * (x.grid k).quarter < (x.grid k).step)

/-- The least `k` with `x` below `10 ^ k`: an estimate from the binary logarithm, corrected by exact
comparison. -/
def magnitude (x : Binary) : Int :=
  let guess := ((x.mantissa.log2 : Int) + x.exponent) * 30103 / 100000
  (([guess - 1, guess, guess + 1, guess + 2].find? x.belowPower).getD (guess + 3))

/-- All digits of the value. -/
def exact (x : Binary) : Digits :=
  if 0 ≤ x.exponent then
    ⟨x.mantissa * Nat.pow 2 x.exponent.toNat, 0⟩
  else
    ⟨x.mantissa * Nat.pow 5 (-x.exponent).toNat, x.exponent⟩

end Binary

/-- Moves trailing zeros of the significand into the exponent. -/
def Digits.trim (d : Digits) : Digits :=
  go d.significand d.exponent
where
  /-- Divides by ten while the significand is a positive multiple of ten. -/
  go (n : Nat) (e : Int) : Digits :=
    if 0 < n ∧ n % 10 = 0 then go (n / 10) (e + 1) else ⟨n, e⟩
  termination_by n

/-- A decimal with the fewest digits among those that round to `x`, the nearest of them, with `tie`
deciding between two equally near ones. Seventeen digits always suffice for a double. -/
def Binary.shortest (tie : Tie) (x : Binary) : Digits :=
  if x.mantissa = 0 then
    ⟨0, 0⟩
  else
    let k := x.magnitude
    (((List.range 17).findSome? fun (n : Nat) => x.onGrid? tie (k - 1 - n)).getD x.exact).trim

end Scriptlet.Decimal
