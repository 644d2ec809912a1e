import OrderedMaps.BTree.Search

/-!
# Range scans

* `BTree.Scan`: the entries that a scan found, and whether it is over.
* `BTree.Node.range`: the entries of a subtree between two keys.
-/

namespace OrderedMaps.BTree

/-- What a scan found. -/
structure Scan (K V : Type) where
  entries : List (K × V)
  /-- The scan met a key that is not below the upper bound, so that there is nothing more to find
  to the right. -/
  stopped : Bool

variable {K V : Type}

/-- The entries of two scans, the second of which is made only if the first did not stop. -/
def Scan.andThen (first : Scan K V) (rest : Run K V (Scan K V)) : Run K V (Scan K V) := do
  if first.stopped then return first
  let rest ← rest
  return { rest with entries := first.entries ++ rest.entries }

namespace Node

/-- Takes one entry, if its key is below the upper bound, and goes on with what is to its right. -/
def scanEntry (d : Discipline K V) (high : K) (key : K) (value : V)
    (rest : Run K V (Scan K V)) : Run K V (Scan K V) := do
  if (← d.comparator.ask key high).isLT then
    Scan.andThen { entries := [(key, value)], stopped := false } rest
  else return { entries := [], stopped := true }

/-- The entries of a leaf below the upper bound. -/
def scanLeaf (d : Discipline K V) (high : K) : List K → List V → Run K V (Scan K V)
  | key :: keys, value :: values => scanEntry d high key value (scanLeaf d high keys values)
  | _, _ => return { entries := [], stopped := false }

mutual

/-- The entries of a subtree from `low` on and below `high`. Children to the left of the place of
`low` hold only keys below it and are not visited. -/
def range (d : Discipline K V) (low high : K) : Node K V → Run K V (Scan K V)
  | ⟨keys, values, children⟩ => do
      match ← d.locate keys low with
      | .found start | .gap start => rangeIn d low high start children keys values

/-- Scans the given subtrees and the given entries between them, from a position on. -/
def rangeIn (d : Discipline K V) (low high : K) :
    Nat → List (Node K V) → List K → List V → Run K V (Scan K V)
  | start, [], keys, values => scanLeaf d high (keys.drop start) (values.drop start)
  | start + 1, _ :: children, keys, values =>
      rangeIn d low high start children (keys.drop 1) (values.drop 1)
  | 0, child :: children, keys, values => do
      Scan.andThen (← child.range d low high) <|
        match keys, values with
        | key :: keys, value :: values =>
            scanEntry d high key value (rangeIn d low high 0 children keys values)
        | _, _ => return { entries := [], stopped := false }

end

end Node

end OrderedMaps.BTree
