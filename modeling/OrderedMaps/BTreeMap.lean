import OrderedMaps.BTree.Audit
import OrderedMaps.BTree.Erase
import OrderedMaps.BTree.Range
import OrderedMaps.Comparator.Standard
import OrderedMaps.Settings
import OrderedMaps.Versioned

/-!
# Maps on multi-way trees

* `BTreeMap`: an order, a degree and a versioned tree.
* Reading: `BTreeMap.get`, `BTreeMap.contains`, `BTreeMap.toList`, `BTreeMap.range`, …
* Writing: `BTreeMap.insert`, `BTreeMap.insertIfNew`, `BTreeMap.insertMany`, `BTreeMap.erase`,
  `BTreeMap.modify`, `BTreeMap.clear`. Each call advances the version by one, whether it
  changes anything or not, and answers its result and the map after it.
-/

namespace OrderedMaps

/-- An ordered map kept as a multi-way tree. -/
structure BTreeMap (K V : Type) where
  comparator : Comparator K
  degree : Degree
  locator : BTree.Locator K V := .bisect
  cell : Versioned (BTree.Tree K V) := Versioned.new BTree.Tree.empty

namespace BTreeMap

variable {K V : Type}

/-! ## Making a map -/

/-- An empty map with the given order and degree. -/
def ofDegree (degree : Degree) (comparator : Comparator K) : Run K V (BTreeMap K V) := do
  record (.createdMultiway degree.val)
  return { comparator, degree }

/-- An empty map with the given settings. -/
def ofSettings (settings : Settings K) : Run K V (Except MapError (BTreeMap K V)) := do
  match ← settings.requireComparator with
  | .error error => return .error error
  | .ok comparator =>
      match ← settings.requireDegree with
      | .error error => return .error error
      | .ok degree => return .ok (← ofDegree degree comparator)

/-- An empty map with the given order, and with the given number as degree if it can be one. -/
def new (degree : Nat) (comparator : Comparator K) : Run K V (Except MapError (BTreeMap K V)) :=
  ofSettings { comparator := some comparator, degree }

/-- An empty map of the standard degree, in the order that the key type comes with. -/
def standard [Ord K] : Run K V (BTreeMap K V) := ofDegree .standard .natural

/-! ## Reading -/

def tree (map : BTreeMap K V) : BTree.Tree K V := map.cell.value

/-- What the operations on the tree go by. -/
def discipline (map : BTreeMap K V) : BTree.Discipline K V :=
  ⟨map.comparator, map.locator, map.degree.val⟩

def size (map : BTreeMap K V) : Nat := map.tree.size

def isEmpty (map : BTreeMap K V) : Bool := map.size == 0

/-- The number of times the map was opened for writing. -/
def version (map : BTreeMap K V) : Nat := map.cell.version

/-- The number of levels: one while the root is a leaf. -/
def height (map : BTreeMap K V) : Nat := map.tree.root.levels

def get (map : BTreeMap K V) (key : K) : Run K V (Except MapError V) := do
  match ← map.tree.root.get map.discipline key with
  | some value => return .ok value
  | none => return .error .keyNotFound

def getD (map : BTreeMap K V) (key : K) (value : V) : Run K V V := do
  match ← map.get key with
  | .ok found => return found
  | .error _ => return value

def contains (map : BTreeMap K V) (key : K) : Run K V Bool := do
  return (← map.tree.root.get map.discipline key).isSome

def toList (map : BTreeMap K V) : List (K × V) := map.tree.root.toList

def foldl {β : Type} (map : BTreeMap K V) (visit : β → K → V → β) (start : β) : β :=
  map.toList.foldl (fun state e => visit state e.1 e.2) start

def keys (map : BTreeMap K V) : List K := map.toList.map Prod.fst

def values (map : BTreeMap K V) : List V := map.toList.map Prod.snd

def minEntry (map : BTreeMap K V) : Except MapError (K × V) :=
  match map.tree.root.first? with
  | some entry => .ok entry
  | none => .error .emptyMap

def maxEntry (map : BTreeMap K V) : Except MapError (K × V) :=
  match map.tree.root.last? with
  | some entry => .ok entry
  | none => .error .emptyMap

/-- The entries from `low` on and below `high`, in ascending order. -/
def range (map : BTreeMap K V) (low high : K) :
    Run K V (Except MapError (List (K × V))) := do
  if (← map.comparator.ask low high).isLT then
    let scan ← map.tree.root.range map.discipline low high
    if scan.stopped then record .scanStopped
    return .ok scan.entries
  else return .error .invertedRange

/-! ## Writing -/

/-- Opens the tree for writing. -/
def edit {β : Type} (map : BTreeMap K V)
    (f : BTree.Discipline K V → BTree.Tree K V → Run K V (β × BTree.Tree K V)) :
    Run K V (β × BTreeMap K V) := do
  let (result, cell) ← map.cell.write fun _ => f map.discipline
  return (result, { map with cell })

/-- Writes a value under a key. The answer is the value that was replaced, if any; the stored key
stays in place. -/
def insert (map : BTreeMap K V) (key : K) (value : V) : Run K V (Option V × BTreeMap K V) :=
  map.edit fun d tree => tree.insert d key value

/-- Writes a value under a key that has none. The answer is the value that the key has, if any. -/
def insertIfNew (map : BTreeMap K V) (key : K) (value : V) :
    Run K V (Option V × BTreeMap K V) :=
  map.edit fun d tree => do
    match ← tree.root.get d key with
    | some existing => return (some existing, tree)
    | none =>
        let (_, tree) ← tree.insert d key value
        return (none, tree)

/-- Writes all entries, one after the other. The answer is by how many entries the map grew, which
is the number of keys that had no value. -/
def insertMany (map : BTreeMap K V) (entries : List (K × V)) :
    Run K V (Nat × BTreeMap K V) :=
  map.edit fun d before => do
    let after ← entries.foldlM (fun tree (key, value) => do
      let (_, tree) ← tree.insert d key value
      return tree) before
    return (← countSince before.size after.size, after)

/-- Removes a key. The answer is the value it had. -/
def erase (map : BTreeMap K V) (key : K) :
    Run K V (Except MapError V × BTreeMap K V) :=
  map.edit fun d tree => do
    match ← tree.erase d key with
    | (some value, tree) => return (.ok value, tree)
    | (none, tree) => return (.error .keyNotFound, tree)

/-- Recomputes the value of a key. The function is shown the value and answers a new one, and
whether the key is to keep it. The answer is the new value, or nothing if the key was removed. -/
def modify (map : BTreeMap K V) (key : K) (f : V → V × Bool) :
    Run K V (Except MapError (Option V) × BTreeMap K V) :=
  map.edit fun d tree => do
    let (root, result) ← tree.root.alter d key fun old => do
      recordShown old
      match f old with
      | (value, true) => return (value, some value)
      | (_, false) => return (old, none)
    match result with
    | none => return (.error .keyNotFound, tree)
    | some (some value) => return (.ok (some value), { tree with root })
    | some none =>
        let (_, tree) ← tree.erase d key
        return (.ok none, tree)

def clear (map : BTreeMap K V) : Run K V (Unit × BTreeMap K V) :=
  map.edit fun _ tree => do
    record (.clearedMultiway tree.size)
    return ((), BTree.Tree.empty)

/-! ## Audits and written forms -/

/-- Checks everything that is to hold of the map. -/
def audit (map : BTreeMap K V) : Run K V (Except (BTree.Violation K) Unit) :=
  map.tree.audit map.comparator map.degree.val

def text [Literal K] [Literal V] (map : BTreeMap K V) : String :=
  Listing.entries map.toList

def lines [Literal K] [Literal V] (map : BTreeMap K V) : String :=
  Listing.entryLines map.toList

end BTreeMap

end OrderedMaps
