import OrderedMaps.Avl.Balance

/-!
# Insertion

* `Avl.insertAt`: insertion into a subtree.
* `Avl.insert`: insertion into the tree.
-/

namespace OrderedMaps.Avl

variable {K V : Type}

/-- Writes `value` under `key` in the subtree at the given slot, below the given parent. The
answer is the slot of the subtree's new root and the value that was replaced, if any. Only where
nothing was replaced did the subtree grow, so that only then the nodes on the way back are
rebalanced. A key that compares equal to a stored one leaves that one in place. -/
def insertAt (cmp : Comparator K) (key : K) (value : V) (stamp : Nat) :
    Nat → Option Slot → Option Slot → Edit K V (Slot × Option V)
  | _, none, parent => do
      return (← addNode { key, value, parent, stamp }, none)
  | 0, some _, _ => throw Fault.endlessPath
  | steps + 1, some slot, _ => do
      let node ← readNode slot
      match Side.ofOrdering? (← ask cmp key node.key) with
      | some side =>
          let (child, old) ←
            insertAt cmp key value stamp steps (node.child side) (some slot)
          setChild side slot (some child)
          if old.isSome then return (slot, old)
          else return (← rebalance slot, none)
      | none =>
          writeNode slot ({ · with value, stamp })
          return (slot, some node.value)

/-- Writes `value` under `key`. The answer is the value that was replaced, if any. -/
def insert (cmp : Comparator K) (key : K) (value : V) (stamp : Nat) :
    Edit K V (Option V) := do
  let tree ← get
  let (root, old) ← insertAt cmp key value stamp tree.pathBound tree.root none
  adoptRoot (some root)
  return old

end OrderedMaps.Avl
