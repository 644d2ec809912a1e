import OrderedMaps.BTree.Node

/-!
# Search in a node

* `BTree.Place`: where a key belongs in a node: at one of its keys, or between two of them.
* `BTree.Locator`: a way to find that place, with `BTree.Locator.IsInRange`.
* `BTree.Locator.bisect`: the one that maps use, by repeated halving.
* `BTree.Discipline`: what all operations on one tree go by.
* `BTree.Node.get`, `BTree.Node.alter`: read and change the value of a key.
-/

namespace OrderedMaps.BTree

/-- Where a key belongs in a node. -/
inductive Place where
  /-- The key at this position compares equal. -/
  | found (position : Nat)
  /-- The key lies between its neighbours at this position, in the child that is there. -/
  | gap (position : Nat)
  deriving DecidableEq

/-- The place exists in a node of `n` keys. -/
def Place.InRange (n : Nat) : Place → Prop
  | found position => position < n
  | gap position => position ≤ n

/-- A way to find the place of a key among the keys of a node. -/
structure Locator (K V : Type) where
  /-- Finds the place of the second argument in the first one. -/
  locate : Comparator K → List K → K → Run K V Place

namespace Locator

variable {K V : Type}

/-- The locator does nothing but compare keys, and every place that it finds exists. -/
def IsInRange (locator : Locator K V) : Prop :=
  ∀ cmp keys key journal, ∃ place journal',
    (locator.locate cmp keys key).run journal = .ok (place, journal') ∧
      place.InRange keys.length ∧ journal'.events = journal.events ∧
      journal'.shown = journal.shown

/-- Halves the window of `size` keys until one key is left, at most as often as the first argument
says, and answers the position of that key. The list starts with the window, whose first key has
the position `base`. The key in the middle becomes the first one, unless it is above the key. -/
def narrow (cmp : Comparator K) (key : K) : Nat → List K → Nat → Nat → Run K V Nat
  | 0, _, base, _ => return base
  | steps + 1, window, base, size => do
      if size ≤ 1 then return base
      let half := size / 2
      let upper := window.drop half
      let order ← cmp.ask (← Checked.nth upper 0) key
      if order.isGT then narrow cmp key steps window base (size - half)
      else narrow cmp key steps upper (base + half) (size - half)

/-- Narrows the keys down to one and compares that one with the key. -/
def bisect : Locator K V where
  locate cmp keys key := do
    if keys.isEmpty then return .gap 0
    let base ← narrow cmp key keys.length keys 0 keys.length
    match ← cmp.ask (← Checked.nth keys base) key with
    | .eq => return .found base
    | .lt => return .gap (base + 1)
    | .gt => return .gap base

end Locator

/-- What all operations on one tree go by. -/
structure Discipline (K V : Type) where
  comparator : Comparator K
  locator : Locator K V
  degree : Nat

/-- Finds the place of a key among the keys of a node. -/
def Discipline.locate {K V : Type} (d : Discipline K V) (keys : List K) (key : K) :
    Run K V Place :=
  d.locator.locate d.comparator keys key

namespace Node

variable {K V : Type}

mutual

/-- The value of a key, if it has one. -/
def get (d : Discipline K V) (key : K) : Node K V → Run K V (Option V)
  | ⟨keys, values, children⟩ => do
      match ← d.locate keys key with
      | .found position => return some (← Checked.nth values position)
      | .gap position =>
          if children.isEmpty then return none
          else getIn d key children position

/-- The value of a key in the subtree at a position. -/
def getIn (d : Discipline K V) (key : K) : List (Node K V) → Nat → Run K V (Option V)
  | [], position => throw (Fault.outOfRange position 0)
  | child :: _, 0 => child.get d key
  | _ :: children, position + 1 => getIn d key children position

end

mutual

/-- Runs `f` on the value of a key and puts the first part of its result there. The answer is the
second part, if the key has a value. -/
def alter {β : Type} (d : Discipline K V) (key : K) (f : V → Run K V (V × β)) :
    Node K V → Run K V (Node K V × Option β)
  | ⟨keys, values, children⟩ => do
      match ← d.locate keys key with
      | .found position =>
          let (value, result) ← f (← Checked.nth values position)
          let values ← Checked.replace values position value
          return (⟨keys, values, children⟩, some result)
      | .gap position =>
          if children.isEmpty then return (⟨keys, values, children⟩, none)
          else
            let (children, result) ← alterIn d key f children position
            return (⟨keys, values, children⟩, result)

/-- Does the same in the subtree at a position. -/
def alterIn {β : Type} (d : Discipline K V) (key : K) (f : V → Run K V (V × β)) :
    List (Node K V) → Nat → Run K V (List (Node K V) × Option β)
  | [], position => throw (Fault.outOfRange position 0)
  | child :: children, 0 => do
      let (child, result) ← child.alter d key f
      return (child :: children, result)
  | child :: children, position + 1 => do
      let (children, result) ← alterIn d key f children position
      return (child :: children, result)

end

end Node

end OrderedMaps.BTree
