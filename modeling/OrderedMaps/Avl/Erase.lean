import OrderedMaps.Avl.Balance

/-!
# Removal

* `Avl.detachLeast`: takes the first node out of a subtree.
* `Avl.eraseAt`: removal from a subtree.
* `Avl.erase`: removal from the tree.
-/

namespace OrderedMaps.Avl

variable {K V : Type}

/-- Takes the first node out of the subtree at `slot` and rebalances the way back. The answer is
the slot of the subtree's new root, if anything is left, and the node. -/
def detachLeast : Nat → Slot → Edit K V (Option Slot × Node K V)
  | 0, _ => throw Fault.endlessPath
  | steps + 1, slot => do
      let node ← readNode slot
      match node.left with
      | some left =>
          let (left, least) ← detachLeast steps left
          setChild .left slot left
          return (some (← rebalance slot), least)
      | none => return (node.right, ← removeNode slot)

/-- Removes `key` from the subtree at the given slot. The answer is the slot of the subtree's new
root, if anything is left, and the value removed, if any. A node with two children stays where it
is and takes over the next entry, whose own node is removed in its place. -/
def eraseAt (cmp : Comparator K) (key : K) (stamp : Nat) :
    Nat → Option Slot → Edit K V (Option Slot × Option V)
  | _, none => return (none, none)
  | 0, some _ => throw Fault.endlessPath
  | steps + 1, some slot => do
      let node ← readNode slot
      match Side.ofOrdering? (← ask cmp key node.key) with
      | some side =>
          let (child, removed) ← eraseAt cmp key stamp steps (node.child side)
          if removed.isNone then return (some slot, none)
          setChild side slot child
          return (some (← rebalance slot), removed)
      | none =>
          match node.left, node.right with
          | some _, some right =>
              let (right, next) ← detachLeast steps right
              setChild .right slot right
              writeNode slot ({ · with key := next.key, value := next.value, stamp })
              return (some (← rebalance slot), some node.value)
          | child, none | none, child =>
              let node ← removeNode slot
              return (child, some node.value)

/-- Removes `key`. The answer is the value removed, if any. -/
def erase (cmp : Comparator K) (key : K) (stamp : Nat) : Edit K V (Option V) := do
  let tree ← get
  let (root, removed) ← eraseAt cmp key stamp tree.pathBound tree.root
  if removed.isSome then adoptRoot root
  return removed

end OrderedMaps.Avl
