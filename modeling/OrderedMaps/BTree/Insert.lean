import OrderedMaps.BTree.Surgery

/-!
# Insertion

A full node is split before a descent enters it, so that the key that moves up finds room.

* `BTree.Node.insert`: insertion below a node that is not full.
* `BTree.Tree`: a root and the number of entries.
* `BTree.Tree.insert`: insertion into a tree, with a new root above a full one.
-/

namespace OrderedMaps.BTree

variable {K V : Type}

/-- Writes `value` under `key` in a node that is not full, or below it; the first argument is the
number of levels. The answer is the node and the value that was replaced, if any. A key that moves
up in a split may be the key itself, or may send it to the right. -/
def Node.insert (d : Discipline K V) (key : K) (value : V) :
    Nat → Node K V → Run K V (Node K V × Option V)
  | 0, _ => throw Fault.endlessPath
  | levels + 1, node => do
      record (.insertingInto node.keys.length)
      match ← d.locate node.keys key with
      | .found position =>
          let (node, old) ← node.replaceValue position value
          return (node, some old)
      | .gap position =>
          if node.isLeaf then return (← node.insertEntry position key value, none)
          let child ← Checked.nth node.children position
          if child.isFull d.degree then
            let node ← node.splitNoted d.degree position
            match ← d.comparator.ask key (← Checked.nth node.keys position) with
            | .eq =>
                let (node, old) ← node.replaceValue position value
                return (node, some old)
            | .gt => node.updateChild (position + 1) (Node.insert d key value levels)
            | .lt => node.updateChild position (Node.insert d key value levels)
          else node.updateChild position (Node.insert d key value levels)

/-- A multi-way tree: its topmost node and the number of entries. -/
structure Tree (K V : Type) where
  /-- The node above all others; a leaf without keys if there are no entries. -/
  root : Node K V := Node.empty
  size : Nat := 0

namespace Tree

def empty : Tree K V := {}

/-- Writes `value` under `key`. The answer is the value that was replaced, if any, and the tree. -/
def insert (d : Discipline K V) (key : K) (value : V) (tree : Tree K V) :
    Run K V (Option V × Tree K V) := do
  let root ←
    if tree.root.isFull d.degree then do
      record (.splittingRoot d.degree)
      Node.splitNoted d.degree 0 ⟨[], [], [tree.root]⟩
    else pure tree.root
  let (root, old) ← root.insert d key value root.levels
  return (old, ⟨root, if old.isNone then tree.size + 1 else tree.size⟩)

end Tree

end OrderedMaps.BTree
