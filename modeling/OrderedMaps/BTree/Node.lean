import OrderedMaps.CheckedList
import OrderedMaps.Journal

/-!
# Nodes of multi-way trees

A node holds keys in ascending order, a value for each key and, unless it is a leaf, one child
more than keys: the child at a position holds the keys between the key before and the key at that
position.

* `BTree.Node`: a node with everything below it.
* `BTree.Node.toList`: the entries in order.
* `BTree.Node.levels`: the number of levels, seen along the first children.
* `BTree.Node.first?`, `BTree.Node.last?`: the outermost entries.
* `BTree.Node.updateChild`: runs a change on one child.
-/

namespace OrderedMaps.BTree

/-- A node of a multi-way tree. -/
structure Node (K V : Type) where
  keys : List K
  /-- The values of these keys. -/
  values : List V
  /-- The subtrees before, between and after the keys; none in a leaf. -/
  children : List (Node K V)

namespace Node

variable {K V : Type}

/-- The leaf without keys. -/
def empty : Node K V := ⟨[], [], []⟩

/-- The node has no children. -/
def isLeaf (node : Node K V) : Bool := node.children.isEmpty

/-- A node of a tree of degree `t` with this many keys takes no more. -/
def isFull (t : Nat) (node : Node K V) : Bool := node.keys.length == 2 * t - 1

/-! ## Traversals -/

mutual

/-- The entries of a node and everything below it, in order. -/
def toList : Node K V → List (K × V)
  | ⟨keys, values, children⟩ => weave children keys values

/-- The entries of the given subtrees with the given entries between them. -/
def weave : List (Node K V) → List K → List V → List (K × V)
  | [], keys, values => keys.zip values
  | child :: children, key :: keys, value :: values =>
      child.toList ++ (key, value) :: weave children keys values
  | child :: _, _, _ => child.toList

end

/-- The number of levels, seen along the first children. -/
def levels : Node K V → Nat
  | ⟨_, _, []⟩ => 1
  | ⟨_, _, child :: _⟩ => child.levels + 1

/-- The first entry of the leftmost leaf. -/
def first? : Node K V → Option (K × V)
  | ⟨keys, values, []⟩ => keys.head?.bind fun key => values.head?.map fun value => (key, value)
  | ⟨_, _, child :: _⟩ => child.first?

mutual

/-- The last entry of the rightmost leaf. -/
def last? : Node K V → Option (K × V)
  | ⟨keys, values, children⟩ =>
      if children.isEmpty then
        keys.getLast?.bind fun key => values[keys.length - 1]?.map fun value => (key, value)
      else lastOf? children

/-- The last entry of the last of the given nodes. -/
def lastOf? : List (Node K V) → Option (K × V)
  | [] => none
  | child :: children => if children.isEmpty then child.last? else lastOf? children

end

/-! ## Children -/

/-- The number of keys of the child at a position. -/
def childSize (node : Node K V) (position : Nat) : Except Fault Nat := do
  return (← Checked.nth node.children position).keys.length

/-- Runs `f` on the child at a position and puts its result there. -/
def updateChild {β : Type} (node : Node K V) (position : Nat)
    (f : Node K V → Run K V (Node K V × β)) : Run K V (Node K V × β) := do
  let child ← Checked.nth node.children position
  let (child, result) ← f child
  let children ← Checked.replace node.children position child
  return ({ node with children }, result)

/-- Puts a value in the place of the value at a position. The answer is the node and the value
that was there. -/
def replaceValue (node : Node K V) (position : Nat) (value : V) :
    Except Fault (Node K V × V) := do
  let old ← Checked.nth node.values position
  let values ← Checked.replace node.values position value
  return ({ node with values }, old)

/-- Puts an entry in the place of the entry at a position. The answer is the node and the value
that was there. -/
def replaceEntry (node : Node K V) (position : Nat) (key : K) (value : V) :
    Except Fault (Node K V × V) := do
  let keys ← Checked.replace node.keys position key
  let (node, old) ← node.replaceValue position value
  return ({ node with keys }, old)

/-- Makes room for an entry at a position. -/
def insertEntry (node : Node K V) (position : Nat) (key : K) (value : V) :
    Except Fault (Node K V) := do
  let keys ← Checked.insert node.keys position key
  let values ← Checked.insert node.values position value
  return { node with keys, values }

/-- Takes out the entry at a position. -/
def removeEntry (node : Node K V) (position : Nat) : Except Fault (Node K V × K × V) := do
  let (key, keys) ← Checked.remove node.keys position
  let (value, values) ← Checked.remove node.values position
  return ({ node with keys, values }, key, value)

/-- Takes out the last entry. -/
def removeLastEntry (node : Node K V) : Except Fault (Node K V × K × V) := do
  let (key, keys) ← Checked.removeLast node.keys
  let (value, values) ← Checked.removeLast node.values
  return ({ node with keys, values }, key, value)

end Node

end OrderedMaps.BTree
