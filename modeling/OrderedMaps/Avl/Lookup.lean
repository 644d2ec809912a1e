import OrderedMaps.Avl.Tree

/-!
# Look-ups

Descents that ask the comparator.

* `Avl.Tree.find?`: the node of a key.
* `Avl.Tree.range`: the entries between two keys.
* `Avl.findSlot`: the node of a key in the tree under edit.
-/

namespace OrderedMaps.Avl.Tree

variable {K V : Type}

/-- Descends to the node whose key compares equal. -/
def findFrom (tree : Tree K V) (cmp : Comparator K) (key : K) :
    Nat → Option Slot → Run K V (Option Slot)
  | _, none => return none
  | 0, some _ => throw Fault.endlessPath
  | steps + 1, some slot => do
      let node ← tree.node slot
      match Side.ofOrdering? (← cmp.ask key node.key) with
      | none => return some slot
      | some side => findFrom tree cmp key steps (node.child side)

/-- The node of a key, if it has one. -/
def find? (tree : Tree K V) (cmp : Comparator K) (key : K) : Run K V (Option Slot) :=
  tree.findFrom cmp key tree.pathBound tree.root

/-- The entries of a subtree from `low` on and below `high`, in order. Each node visited is
compared with both bounds. Its left subtree is visited only if the node is above `low`, and its
right subtree only if the node is below `high`. -/
def rangeFrom (tree : Tree K V) (cmp : Comparator K) (low high : K) :
    Nat → Option Slot → Run K V (List (K × V))
  | _, none => return []
  | 0, some _ => throw Fault.endlessPath
  | steps + 1, some slot => do
      let node ← tree.node slot
      let toLow ← cmp.ask node.key low
      let toHigh ← cmp.ask node.key high
      let before ←
        if toLow.isGT then rangeFrom tree cmp low high steps node.left else pure []
      let here := if toLow.isGE && toHigh.isLT then [(node.key, node.value)] else []
      let after ←
        if toHigh.isLT then rangeFrom tree cmp low high steps node.right else pure []
      return before ++ here ++ after

/-- The entries from `low` on and below `high`, in order. -/
def range (tree : Tree K V) (cmp : Comparator K) (low high : K) : Run K V (List (K × V)) :=
  tree.rangeFrom cmp low high tree.pathBound tree.root

end OrderedMaps.Avl.Tree

namespace OrderedMaps.Avl

/-- The node of a key in the tree under edit, if it has one. -/
def findSlot {K V : Type} (cmp : Comparator K) (key : K) : Edit K V (Option Slot) := do
  ((← get).find? cmp key : Run K V (Option Slot))

end OrderedMaps.Avl
