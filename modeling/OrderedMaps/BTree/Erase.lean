import OrderedMaps.BTree.Insert

/-!
# Removal

A child that has only the least number of keys is filled before a descent enters it, so that every
node below the root that a removal reaches can lose a key.

* `BTree.Node.popLast`, `BTree.Node.popFirst`: take the outermost entry out of a subtree.
* `BTree.Node.erase`: removal below a node.
* `BTree.Tree.erase`: removal from a tree, where a root without keys makes room for its child.
-/

namespace OrderedMaps.BTree

variable {K V : Type}

namespace Node

/-- Takes the last entry out of a subtree of as many levels as the first argument says. -/
def popLast (t : Nat) : Nat → Node K V → Run K V (Node K V × K × V)
  | 0, _ => throw Fault.endlessPath
  | levels + 1, node => do
      record (.poppingFrom .right node.keys.length)
      if node.isLeaf then node.removeLastEntry
      else
        let (node, position) ← node.fillIfShort t node.keys.length
        node.updateChild position (popLast t levels)

/-- Takes the first entry out of a subtree of as many levels as the first argument says. -/
def popFirst (t : Nat) : Nat → Node K V → Run K V (Node K V × K × V)
  | 0, _ => throw Fault.endlessPath
  | levels + 1, node => do
      record (.poppingFrom .left node.keys.length)
      if node.isLeaf then node.removeEntry 0
      else
        let (node, position) ← node.fillIfShort t 0
        node.updateChild position (popFirst t levels)

/-- Removes `key` from a node or from below it; the first argument is the number of levels. The
answer is the node and the value removed, if any. A key of an inner node gives its place to the
entry before it, or to the one after it, if the child that holds that entry can lose one.
Otherwise the two children are merged around the key, which is then removed from the result. -/
def erase (d : Discipline K V) (key : K) :
    Nat → (atRoot : Bool) → Node K V → Run K V (Node K V × Option V)
  | 0, _, _ => throw Fault.endlessPath
  | levels + 1, atRoot, node => do
      record (.removingFrom atRoot node.keys.length)
      match ← d.locate node.keys key with
      | .found position =>
          if node.isLeaf then
            let (node, _, value) ← node.removeEntry position
            return (node, some value)
          else if d.degree ≤ (← node.childSize position) then
            let (node, key, value) ← node.updateChild position (popLast d.degree levels)
            let (node, old) ← node.replaceEntry position key value
            return (node, some old)
          else if d.degree ≤ (← node.childSize (position + 1)) then
            let (node, key, value) ← node.updateChild (position + 1) (popFirst d.degree levels)
            let (node, old) ← node.replaceEntry position key value
            return (node, some old)
          else
            let node ← node.mergeNoted position
            node.updateChild position (erase d key levels false)
      | .gap position =>
          if node.isLeaf then return (node, none)
          else
            let (node, position) ← node.fillIfShort d.degree position
            node.updateChild position (erase d key levels false)

end Node

/-- Removes `key`. The answer is the value removed, if any, and the tree. The descent rearranges
nodes on its way, so that it is not begun for a key that is not there. -/
def Tree.erase (d : Discipline K V) (key : K) (tree : Tree K V) :
    Run K V (Option V × Tree K V) := do
  if (← tree.root.get d key).isNone then return (none, tree)
  let (root, removed) ← tree.root.erase d key tree.root.levels true
  let root ←
    match root.keys, root.children with
    | [], child :: _ => do
        record .collapsingRoot
        pure child
    | _, _ => pure root
  match removed, tree.size with
  | none, size => return (none, ⟨root, size⟩)
  | some _, 0 => throw Fault.countBelowZero
  | some value, size + 1 => return (some value, ⟨root, size⟩)

end OrderedMaps.BTree
