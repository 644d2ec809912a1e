import OrderedMaps.BTree.Search

/-!
# Moving entries between neighbours

Four operations on a node that move entries between two neighbouring children by way of the key
that separates them. None of them changes the entries of the node or their order.

* `BTree.Node.split`: cuts a full child in two around its middle key, which moves up.
* `BTree.Node.merge`: joins two children around their separator, which moves down.
* `BTree.Node.borrowLeft`, `BTree.Node.borrowRight`: the separator moves down into a child, and
  the nearest key of its sibling takes its place.
* `BTree.Node.fill`: gives a child one key more by the first of these that is possible.
-/

namespace OrderedMaps.BTree.Node

variable {K V : Type}

/-- Cuts the child at `position` in two. Its first `t - 1` entries stay, the next one moves up to
`position`, and those from the one with number `t` on become a new child to its right. -/
def split (t position : Nat) (node : Node K V) : Except Fault (Node K V) := do
  let child ← Checked.nth node.children position
  let (lowKeys, highKeys) ← Checked.split child.keys t
  let (lowValues, highValues) ← Checked.split child.values t
  let (lowChildren, highChildren) ←
    if child.isLeaf then pure ([], []) else Checked.split child.children t
  let (low, key, value) ← removeLastEntry ⟨lowKeys, lowValues, lowChildren⟩
  let node ← node.insertEntry position key value
  let children ← Checked.replace node.children position low
  let children ← Checked.insert children (position + 1) ⟨highKeys, highValues, highChildren⟩
  return { node with children }

/-- Joins the child at `position`, the separator to its right, and the child after that. -/
def merge (position : Nat) (node : Node K V) : Except Fault (Node K V) := do
  let (right, children) ← Checked.remove node.children (position + 1)
  let (node, key, value) ← node.removeEntry position
  let left ← Checked.nth children position
  let children ← Checked.replace children position
    ⟨left.keys ++ key :: right.keys, left.values ++ value :: right.values,
      left.children ++ right.children⟩
  return { node with children }

/-- Moves the separator before the child at `position` to the front of that child, and the last
key of the sibling on the left up in its place. The sibling's last child moves along. -/
def borrowLeft (position : Nat) (node : Node K V) : Except Fault (Node K V) := do
  match position with
  | 0 => throw (Fault.outOfRange 0 node.keys.length)
  | before + 1 =>
      let (left, key, value) ← removeLastEntry (← Checked.nth node.children before)
      let child ← Checked.nth node.children position
      let separator ← Checked.nth node.keys before
      let (node, separatorValue) ← node.replaceEntry before key value
      let (leftChildren, moved) := match left.children.getLast? with
        | some last => (left.children.dropLast, [last])
        | none => ([], [])
      let children ← Checked.replace node.children before { left with children := leftChildren }
      let children ← Checked.replace children position
        ⟨separator :: child.keys, separatorValue :: child.values, moved ++ child.children⟩
      return { node with children }

/-- Moves the separator after the child at `position` to the end of that child, and the first key
of the sibling on the right up in its place. The sibling's first child moves along. -/
def borrowRight (position : Nat) (node : Node K V) : Except Fault (Node K V) := do
  let (right, key, value) ← removeEntry (← Checked.nth node.children (position + 1)) 0
  let child ← Checked.nth node.children position
  let separator ← Checked.nth node.keys position
  let (node, separatorValue) ← node.replaceEntry position key value
  let (moved, rightChildren) := match right.children with
    | first :: rest => ([first], rest)
    | [] => ([], [])
  let children ← Checked.replace node.children (position + 1)
    { right with children := rightChildren }
  let children ← Checked.replace children position
    ⟨child.keys ++ [separator], child.values ++ [separatorValue], child.children ++ moved⟩
  return { node with children }

/-! ## The same with a note in the journal -/

/-- Notes and does a split. -/
def splitNoted (t position : Nat) (node : Node K V) : Run K V (Node K V) := do
  record (.splitting position t (← node.childSize position) node.keys.length)
  node.split t position

/-- Notes and does a merge. -/
def mergeNoted (position : Nat) (node : Node K V) : Run K V (Node K V) := do
  record (.merging position (← node.childSize position) (← node.childSize (position + 1)))
  node.merge position

/-- Notes that the child at `position` borrows from a sibling, and does it. -/
def borrowNoted (donor : Side) (position : Nat) (node : Node K V) : Run K V (Node K V) := do
  match donor with
  | .left =>
      record (.borrowing .left position (← node.childSize (position - 1)))
      node.borrowLeft position
  | .right =>
      record (.borrowing .right position (← node.childSize (position + 1)))
      node.borrowRight position

/-- The child at `position` has `t` keys and can lose one. -/
def spares (node : Node K V) (t position : Nat) : Except Fault Bool := do
  return t ≤ (← node.childSize position)

/-- Gives the child at `position` one key more: from its left sibling if that has `t` keys, else
from its right one if that has, else by a merge with the right one or, for the last child, the
left one. The answer is the node and the position of the child that holds the entries now. -/
def fill (t position : Nat) (node : Node K V) : Run K V (Node K V × Nat) := do
  let last := node.keys.length
  let leftSpares ← if 0 < position then node.spares t (position - 1) else pure false
  if leftSpares then return (← node.borrowNoted .left position, position)
  let rightSpares ← if position < last then node.spares t (position + 1) else pure false
  if rightSpares then return (← node.borrowNoted .right position, position)
  if position < last then return (← node.mergeNoted position, position)
  return (← node.mergeNoted (position - 1), position - 1)

/-- Fills the child at `position` if it has fewer than `t` keys. -/
def fillIfShort (t position : Nat) (node : Node K V) : Run K V (Node K V × Nat) := do
  if (← node.childSize position) < t then node.fill t position else return (node, position)

end OrderedMaps.BTree.Node
