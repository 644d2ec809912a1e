import OrderedMaps.Number.Binary64
import OrderedMaps.Number.Shortest
import OrderedMaps.Text.Quoted

/-!
# Written forms of keys and values

* `Literal`: the types whose elements have a written form.
* `FloatFormat`: the decisions that a written form of floating-point numbers takes.
* `FloatFormat.text`: the written form under these decisions.
* Instances for 64-bit integers, strings and floating-point numbers.
-/

namespace OrderedMaps

/-- Types whose elements have a written form. -/
class Literal (α : Type) where
  text : α → String

/-- Integers are written in decimal. -/
instance : Literal Int64 where
  text n := toString n.toInt

/-- Strings are written in quotes. -/
instance : Literal String where
  text := Text.quote

/-- How a floating-point number is written. -/
structure FloatFormat where
  /-- The least decimal exponent of the first digit that is written without an exponent. -/
  leastPlain : Int
  /-- The least decimal exponent of the first digit that needs an exponent again. -/
  leastScientific : Int
  /-- What follows a whole number that is written without an exponent. -/
  wholeEnding : String
  /-- What stands between the digits and the exponent. -/
  exponentMark : String
  /-- The text of infinity, without a sign. -/
  infinity : String
  notANumber : String

namespace FloatFormat

/-- That many zeros. -/
def zeros (n : Nat) : String := String.ofList (List.replicate n '0')

/-- The digits with a point after the first `n`, padded with zeros where there are none. -/
def plain (format : FloatFormat) (digits : List Char) (n : Int) : String :=
  if n ≤ 0 then
    "0." ++ zeros (-n).toNat ++ String.ofList digits
  else if n.toNat < digits.length then
    String.ofList (digits.take n.toNat) ++ "." ++ String.ofList (digits.drop n.toNat)
  else
    String.ofList digits ++ zeros (n.toNat - digits.length) ++ format.wholeEnding

/-- The digits with a point after the first one, unless it is the only one, and the exponent. -/
def scientific (format : FloatFormat) (digits : List Char) (exponent : Int) : String :=
  let rest := digits.drop 1
  String.ofList (digits.take 1) ++
    (if rest.isEmpty then "" else "." ++ String.ofList rest) ++
    format.exponentMark ++ toString exponent

/-- The written form of a positive decimal number. -/
def decimal (format : FloatFormat) (d : Number.Decimal) : String :=
  let digits := Nat.toDigits 10 d.digits
  let exponent := d.power + digits.length - 1
  if format.leastPlain ≤ exponent ∧ exponent < format.leastScientific then
    format.plain digits (exponent + 1)
  else
    format.scientific digits exponent

/-- The written form of a floating-point number: the fewest digits that read back as it, of these
the nearest to it. -/
def text (format : FloatFormat) (x : Binary64) : String :=
  let sign := if x.isNegative then "-" else ""
  match x.kind with
  | .nan => format.notANumber
  | .infinite => sign ++ format.infinity
  | .finite mantissa exponent narrowBelow =>
      if mantissa = 0 then sign ++ "0" ++ format.wholeEnding
      else sign ++ format.decimal (Number.shortest mantissa exponent narrowBelow)

/-- Numbers from `10 ^ -4` up to, but without, `10 ^ 16` are written without an exponent, and show
at least one digit after the point. -/
def standard : FloatFormat where
  leastPlain := -4
  leastScientific := 16
  wholeEnding := ".0"
  exponentMark := "e"
  infinity := "inf"
  notANumber := "NaN"

end FloatFormat

/-- Floating-point numbers are written in the standard format. -/
instance : Literal Binary64 where
  text := FloatFormat.standard.text

end OrderedMaps
