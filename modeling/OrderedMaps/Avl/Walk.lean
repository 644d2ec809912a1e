import OrderedMaps.Avl.Tree

/-!
# Walks

The entries of a tree in order, without a comparison: from the outermost node on the left, each
step goes to the next node by links down and up.

* `Avl.Tree.outermost?`: the first node seen from one side.
* `Avl.Tree.successor?`: the node after a given one.
* `Avl.Tree.slots`, `Avl.Tree.toList`: the nodes and the entries in the order of the walk.
-/

namespace OrderedMaps.Avl.Tree

variable {K V : Type}

/-- Follows the links on one side as long as there are any. -/
def descend (tree : Tree K V) (side : Side) : Nat → Slot → Except Fault Slot
  | 0, _ => throw .endlessPath
  | steps + 1, slot => do
      match (← tree.node slot).child side with
      | none => return slot
      | some child => descend tree side steps child

/-- The outermost node on one side of the subtree at `slot`. -/
def outermost (tree : Tree K V) (side : Side) (slot : Slot) : Except Fault Slot :=
  tree.descend side tree.pathBound slot

/-- The outermost node on one side of the tree. -/
def outermost? (tree : Tree K V) (side : Side) : Except Fault (Option Slot) := do
  match tree.root with
  | none => return none
  | some root => return some (← tree.outermost side root)

/-- Goes up from `child` to `parent`, and on until it has come from a left subtree. -/
def climb (tree : Tree K V) : Nat → Slot → Option Slot → Except Fault (Option Slot)
  | _, _, none => return none
  | 0, _, some _ => throw .endlessPath
  | steps + 1, child, some parent => do
      let node ← tree.node parent
      if node.left = some child then return some parent
      else climb tree steps parent node.parent

/-- The node after the one in `slot`: the first of its right subtree or, if that is empty, the
nearest node above whose left subtree holds it. -/
def successor? (tree : Tree K V) (slot : Slot) : Except Fault (Option Slot) := do
  let node ← tree.node slot
  match node.right with
  | some right => return some (← tree.outermost .left right)
  | none => tree.climb tree.pathBound slot node.parent

/-- The nodes from a given one on, each found from the one before. -/
def walk (tree : Tree K V) : Nat → Option Slot → Except Fault (List Slot)
  | _, none => return []
  | 0, some _ => throw .endlessPath
  | steps + 1, some slot => do
      let next ← tree.successor? slot
      return slot :: (← walk tree steps next)

/-- All nodes in the order of their keys. -/
def slots (tree : Tree K V) : Except Fault (List Slot) := do
  tree.walk tree.pathBound (← tree.outermost? .left)

/-- All entries in the order of their keys. -/
def toList (tree : Tree K V) : Except Fault (List (K × V)) := do
  (← tree.slots).mapM tree.entry

end OrderedMaps.Avl.Tree
