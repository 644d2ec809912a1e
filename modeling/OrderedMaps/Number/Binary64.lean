/-!
# 64-bit binary floating-point numbers

A number is its 64 bits, so that the two zeros and the many not-a-numbers stay apart.

* `Binary64.isNegative`, `Binary64.magnitude`: the sign bit and the other 63 bits.
* `Binary64.rank`: the place of a number in the IEEE 754 total order, as an integer.
* `Binary64.totalOrder`: the IEEE 754 total order.
* `Binary64.kind`: not a number, infinite, or the exact value of a finite magnitude.
-/

namespace OrderedMaps

/-- A 64-bit binary floating-point number, given by its bits. -/
structure Binary64 where
  /-- Sign, eleven bits of exponent, fifty-two bits of fraction. -/
  bits : UInt64
  deriving DecidableEq

/-- What the bits below the sign denote. -/
inductive Binary64.Kind where
  | nan
  | infinite
  /-- The number `mantissa * 2 ^ exponent`. The flag says that the next smaller magnitude is
  only half as far away as the next larger one. -/
  | finite (mantissa : Nat) (exponent : Int) (narrowBelow : Bool)

namespace Binary64

/-- The sign bit. Zeros and not-a-numbers have one, too. -/
def isNegative (x : Binary64) : Bool := decide (0x8000000000000000 ≤ x.bits.toNat)

/-- The bits below the sign, read as a natural number. -/
def magnitude (x : Binary64) : Nat := x.bits.toNat % 0x8000000000000000

/-- The place of `x` in the total order: magnitudes ascend from `+0` on and descend, below it,
from `-0` on. -/
def rank (x : Binary64) : Int :=
  if x.isNegative then -1 - (x.magnitude : Int) else x.magnitude

/-- The IEEE 754 total order: negative not-a-numbers, negative infinity, the negative numbers,
`-0`, `+0`, the positive numbers, positive infinity, positive not-a-numbers. -/
def totalOrder (x y : Binary64) : Ordering := compare x.rank y.rank

/-- The exponent bits. -/
def exponentField (x : Binary64) : Nat := x.magnitude / 0x10000000000000

/-- The fraction bits. -/
def fractionField (x : Binary64) : Nat := x.magnitude % 0x10000000000000

/-- Reads the bits below the sign. A zero exponent field marks the numbers without the implied
leading bit, a full one marks infinity and the not-a-numbers. -/
def kind (x : Binary64) : Kind :=
  if x.exponentField = 2047 then
    if x.fractionField = 0 then .infinite else .nan
  else if x.exponentField = 0 then
    .finite x.fractionField (-1074) false
  else
    .finite (0x10000000000000 + x.fractionField) (x.exponentField - 1075)
      (x.fractionField == 0 && x.exponentField != 1)

end Binary64

end OrderedMaps
