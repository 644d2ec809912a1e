/-!
# Errors

What a map can refuse to do, by cause.

* `MapError`: the causes.
* `MapError.message`: the one wording of each.
-/

namespace OrderedMaps

/-- Why a map could not be made, or could not answer. -/
inductive MapError where
  /-- A map was to be made without an order for its keys. -/
  | missingComparator
  /-- A multi-way tree was to be made with a degree that it cannot have. -/
  | degreeOutOfRange (degree : Nat)
  /-- The key is not in the map. -/
  | keyNotFound
  /-- The lower bound of a range is not below its upper bound. -/
  | invertedRange
  /-- The smallest or largest entry of a map without entries was asked for. -/
  | emptyMap
  /-- The map was written to since the reader took note of its version. -/
  | modifiedMeanwhile
  deriving DecidableEq

namespace MapError

/-- The text that tells a person what is wrong. -/
def message : MapError → String
  | missingComparator => "a comparator is required to order keys"
  | degreeOutOfRange degree =>
      s!"invalid degree {degree}: a multi-way tree needs a degree between 2 and usize::MAX / 2"
  | keyNotFound => "key not found"
  | invertedRange =>
      "invalid range: the lower bound must be strictly less than the upper bound"
  | emptyMap => "the tree is empty"
  | modifiedMeanwhile => "the tree was modified while it was being iterated"

end MapError

end OrderedMaps
