import OrderedMaps.Avl.Audit
import OrderedMaps.Avl.Erase
import OrderedMaps.Avl.Insert
import OrderedMaps.Avl.Lookup
import OrderedMaps.Comparator.Standard
import OrderedMaps.Settings
import OrderedMaps.Text.Listing
import OrderedMaps.Versioned

/-!
# Maps on height-balanced binary trees

* `AvlMap`: an order and a versioned tree.
* Reading: `AvlMap.get`, `AvlMap.contains`, `AvlMap.toList`, `AvlMap.range`, `AvlMap.minEntry`, …
* Writing: `AvlMap.insert`, `AvlMap.insertIfNew`, `AvlMap.insertMany`, `AvlMap.erase`,
  `AvlMap.modify`, `AvlMap.clear`. Each call advances the version by one, whether it
  changes anything or not, and answers its result and the map after it.
-/

namespace OrderedMaps

/-- An ordered map kept as a height-balanced binary tree. -/
structure AvlMap (K V : Type) where
  comparator : Comparator K
  cell : Versioned (Avl.Tree K V)

namespace AvlMap

variable {K V : Type}

/-! ## Making a map -/

/-- An empty map with the given order. -/
def new (comparator : Comparator K) : Run K V (AvlMap K V) := do
  record .createdBinary
  return { comparator, cell := Versioned.new Avl.Tree.empty }

/-- An empty map with the given settings. The degree is of no consequence. -/
def ofSettings (settings : Settings K) : Run K V (Except MapError (AvlMap K V)) := do
  match ← settings.requireComparator with
  | .ok comparator => return .ok (← new comparator)
  | .error error => return .error error

/-- An empty map in the order that the key type comes with. -/
def standard [Ord K] : Run K V (AvlMap K V) := new .natural

/-! ## Reading -/

def tree (map : AvlMap K V) : Avl.Tree K V := map.cell.value

def size (map : AvlMap K V) : Nat := map.tree.size

def isEmpty (map : AvlMap K V) : Bool := map.size == 0

/-- The number of times the map was opened for writing. -/
def version (map : AvlMap K V) : Nat := map.cell.version

/-- The height of the root: one below zero if there is none. -/
def height (map : AvlMap K V) : Except Fault Int := map.tree.heightAt map.tree.root

def get (map : AvlMap K V) (key : K) : Run K V (Except MapError V) := do
  match ← map.tree.find? map.comparator key with
  | some slot => return .ok (← map.tree.node slot).value
  | none => return .error .keyNotFound

def getD (map : AvlMap K V) (key : K) (value : V) : Run K V V := do
  match ← map.get key with
  | .ok found => return found
  | .error _ => return value

def contains (map : AvlMap K V) (key : K) : Run K V Bool := do
  return (← map.tree.find? map.comparator key).isSome

def toList (map : AvlMap K V) : Except Fault (List (K × V)) := map.tree.toList

def foldl {β : Type} (map : AvlMap K V) (visit : β → K → V → β) (start : β) :
    Except Fault β := do
  return (← map.toList).foldl (fun state e => visit state e.1 e.2) start

def keys (map : AvlMap K V) : Except Fault (List K) := do
  return (← map.toList).map Prod.fst

def values (map : AvlMap K V) : Except Fault (List V) := do
  return (← map.toList).map Prod.snd

/-- The outermost entry on one side. -/
def outermost (map : AvlMap K V) (side : Side) : Except Fault (Except MapError (K × V)) := do
  match ← map.tree.outermost? side with
  | some slot => return .ok (← map.tree.entry slot)
  | none => return .error .emptyMap

def minEntry (map : AvlMap K V) : Except Fault (Except MapError (K × V)) := map.outermost .left

def maxEntry (map : AvlMap K V) : Except Fault (Except MapError (K × V)) := map.outermost .right

/-- The entries from `low` on and below `high`, in ascending order. -/
def range (map : AvlMap K V) (low high : K) : Run K V (Except MapError (List (K × V))) := do
  if (← map.comparator.ask low high).isLT then
    return .ok (← map.tree.range map.comparator low high)
  else return .error .invertedRange

/-! ## Writing -/

/-- Opens the tree for writing. The edit is told the new version. -/
def edit {β : Type} (map : AvlMap K V) (f : Comparator K → Nat → Avl.Edit K V β) :
    Run K V (β × AvlMap K V) :=
  match map with
  | ⟨comparator, cell⟩ => do
      let (result, cell) ← cell.write (f comparator)
      return (result, ⟨comparator, cell⟩)

/-- Writes a value under a key. The answer is the value that was replaced, if any; the stored key
stays in place. -/
def insert (map : AvlMap K V) (key : K) (value : V) : Run K V (Option V × AvlMap K V) :=
  map.edit fun cmp version => Avl.insert cmp key value version

/-- Writes a value under a key that has none. The answer is the value that the key has, if any. -/
def insertIfNew (map : AvlMap K V) (key : K) (value : V) :
    Run K V (Option V × AvlMap K V) :=
  map.edit fun cmp version => do
    match ← Avl.findSlot cmp key with
    | some slot => return some (← Avl.readNode slot).value
    | none =>
        let _ ← Avl.insert cmp key value version
        return none

/-- Writes all entries, one after the other. The answer is by how many entries the map grew, which
is the number of keys that had no value. -/
def insertMany (map : AvlMap K V) (entries : List (K × V)) : Run K V (Nat × AvlMap K V) :=
  map.edit fun cmp version => do
    let before := (← getThe (Avl.Tree K V)).size
    entries.forM fun (key, value) => discard (Avl.insert cmp key value version)
    countSince before (← getThe (Avl.Tree K V)).size

/-- Removes a key. The answer is the value it had. -/
def erase (map : AvlMap K V) (key : K) : Run K V (Except MapError V × AvlMap K V) :=
  map.edit fun cmp version => do
    match ← Avl.erase cmp key version with
    | some value => return .ok value
    | none => return .error .keyNotFound

/-- Recomputes the value of a key. The function is shown the value and answers a new one, and
whether the key is to keep it. The answer is the new value, or nothing if the key was removed. -/
def modify (map : AvlMap K V) (key : K) (f : V → V × Bool) :
    Run K V (Except MapError (Option V) × AvlMap K V) :=
  map.edit fun cmp version => do
    match ← Avl.findSlot cmp key with
    | none => return .error .keyNotFound
    | some slot =>
        let old := (← Avl.readNode slot).value
        Avl.noteShown old
        match f old with
        | (value, true) =>
            Avl.writeNode slot ({ · with value, stamp := version })
            return .ok (some value)
        | (_, false) =>
            let _ ← Avl.erase cmp key version
            return .ok none

def clear (map : AvlMap K V) : Run K V (Unit × AvlMap K V) :=
  map.edit fun _ _ => do
    Avl.note (.clearedBinary (← getThe (Avl.Tree K V)).size)
    Avl.clear

/-! ## Audits and written forms -/

/-- Checks everything that is to hold of the map. -/
def audit (map : AvlMap K V) : Run K V (Except (Avl.Violation K) Unit) :=
  map.tree.audit map.comparator map.version

def text [Literal K] [Literal V] (map : AvlMap K V) : Except Fault String := do
  return Listing.entries (← map.toList)

def lines [Literal K] [Literal V] (map : AvlMap K V) : Except Fault String := do
  return Listing.entryLines (← map.toList)

end AvlMap

end OrderedMaps
