import OrderedMaps.Comparator
import OrderedMaps.Number.Binary64

/-!
# Standard comparators

The orders of the usual key types.

* `Comparator.natural`: the order a type comes with.
* `Comparator.integers`: 64-bit signed integers by their value.
* `Comparator.strings`: strings by their UTF-8 bytes.
* `Comparator.floats`: floating-point numbers by the IEEE 754 total order, in which every number,
  also a not-a-number, has one place.
-/

namespace OrderedMaps

/-- Compares two strings by their UTF-8 bytes, from the first one on. A string comes before its
continuations. -/
def compareBytes (a b : String) : Ordering :=
  List.compareLex compare a.toUTF8.toList b.toUTF8.toList

namespace Comparator

/-- The order that the key type comes with. -/
def natural {K : Type} [Ord K] : Comparator K := ofFn compare

/-- The order of 64-bit signed integers by value. -/
def integers : Comparator Int64 := ofFn fun a b => compare a.toInt b.toInt

/-- The lexicographic order of strings by their UTF-8 bytes. -/
def strings : Comparator String := ofFn compareBytes

/-- The IEEE 754 total order. -/
def floats : Comparator Binary64 := ofFn Binary64.totalOrder

end Comparator

end OrderedMaps
