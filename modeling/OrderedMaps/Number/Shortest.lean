/-!
# Shortest decimals

The shortest decimal that reads back as a given binary floating-point number.

A number `m * 2 ^ e` is read back from every real number of its rounding interval, which reaches
half way to its two neighbours and holds its two ends exactly if `m` is even. Of the decimal grids
`10 ^ p` the coarsest that has a point in the interval is the one with the fewest digits, and of
the points of that grid in the interval the nearest to the number is taken.

* `Interval`: the number and the two ends of its rounding interval, in one common unit.
* `Interval.nearest?`: the nearest point of a grid in the interval.
* `shortest`: the shortest decimal, as digits and a power of ten.
-/

namespace OrderedMaps.Number

/-- A decimal number `digits * 10 ^ power`. -/
structure Decimal where
  /-- The digits, read as a natural number. -/
  digits : Nat
  /-- The power of ten of the last digit. -/
  power : Int

/-- A positive number with its rounding interval. All three are counted in units of
`2 ^ exponent`, which is a quarter of the number's own last bit. -/
structure Interval where
  low : Nat
  value : Nat
  high : Nat
  /-- The power of two of the unit. -/
  exponent : Int
  /-- The two ends belong to the interval. -/
  closed : Bool

namespace Interval

/-- The rounding interval of `mantissa * 2 ^ exponent`. -/
def ofParts (mantissa : Nat) (exponent : Int) (narrowBelow : Bool) : Interval where
  low := 4 * mantissa - (if narrowBelow then 1 else 2)
  value := 4 * mantissa
  high := 4 * mantissa + 2
  exponent := exponent - 2
  closed := mantissa % 2 == 0

/-- The factor, as numerator and denominator, that takes units of the interval to steps of the
grid `10 ^ p`. -/
def steps (i : Interval) (p : Int) : Nat × Nat :=
  (.pow 2 i.exponent.toNat * .pow 10 (-p).toNat, .pow 2 (-i.exponent).toNat * .pow 10 p.toNat)

/-- The grid point `n * 10 ^ p` lies in the interval. -/
def holds (i : Interval) (p : Int) (n : Nat) : Bool :=
  let (num, den) := i.steps p
  if i.closed then decide (i.low * num ≤ n * den ∧ n * den ≤ i.high * num)
  else decide (i.low * num < n * den ∧ n * den < i.high * num)

/-- The nearest point of the grid `10 ^ p` in the interval, if there is one. If the number lies
half way between two points, it is the upper one. -/
def nearest? (i : Interval) (p : Int) : Option Nat :=
  let (num, den) := i.steps p
  let below := i.value * num / den
  let rest := i.value * num % den
  match i.holds p below, i.holds p (below + 1) with
  | true, true => some (if 2 * rest < den then below else below + 1)
  | true, false => some below
  | false, true => some (below + 1)
  | false, false => none

/-- The nearest point of the first grid that has one, from the grid `10 ^ p` to finer and finer
ones, for at most as many grids as the first argument says. -/
def firstHit : Nat → Interval → Int → Decimal
  | 0, i, p =>
      let (num, den) := i.steps p
      ⟨i.value * num / den, p⟩
  | grids + 1, i, p =>
      match i.nearest? p with
      | some n => ⟨n, p⟩
      | none => firstHit grids i (p - 1)

/-- A power of ten above the number: `2 ^ n` is below `10 ^ (0.30103 * n + 1)`. -/
def topPower (i : Interval) : Int :=
  (Nat.log2 i.value + 1 + i.exponent) * 30103 / 100000 + 2

end Interval

/-- The shortest decimal that reads back as the positive number `mantissa * 2 ^ exponent`.
Seventeen digits always do, and at most three grids are too coarse for a single digit. -/
def shortest (mantissa : Nat) (exponent : Int) (narrowBelow : Bool) : Decimal :=
  let i := Interval.ofParts mantissa exponent narrowBelow
  Interval.firstHit 21 i i.topPower

end OrderedMaps.Number
