import OrderedMaps.Avl.Tree

/-!
# Balance

The subtrees of every node differ in height by at most one. Where an insertion or a removal below
a node made the difference two, a rotation brings the higher side up.

* `Avl.rotate`: lets a node sink to one side, its child on the other side taking its place.
* `Avl.repair`: the one or two rotations for a node that is too high on a given side.
* `Avl.rebalance`: updates the height of a node and repairs it where needed.
-/

namespace OrderedMaps.Avl

variable {K V : Type}

/-- Lets the node in `slot` sink `toward` one side. Its child on the other side takes its place,
parent link included, and hands over the subtree between the two. The answer is that child's slot.
The height of the sunken node is brought up to date first, because the other depends on it. -/
def rotate (toward : Side) (slot : Slot) : Edit K V Slot := do
  let node ← readNode slot
  let some pivot := node.child toward.flip | throw (Fault.missingChild slot)
  note (.rotated toward slot pivot)
  let inner := (← readNode pivot).child toward
  setChild toward.flip slot inner
  setChild toward pivot (some slot)
  writeNode pivot ({ · with parent := node.parent })
  updateHeight slot
  updateHeight pivot
  return pivot

/-- Repairs a node whose subtree on the side `heavy` is higher by two. If the child there is
itself higher on its inner side, that inner side is first turned outward. The answer is the slot
of the subtree's new root, whose parent has yet to be told. -/
def repair (heavy : Side) (slot : Slot) : Edit K V Slot := do
  note (.unbalanced slot heavy)
  let some child := (← readNode slot).child heavy | throw (Fault.missingChild slot)
  if 0 < (← (← get).tilt heavy.flip child) then
    let child ← rotate heavy child
    setChild heavy slot (some child)
  rotate heavy.flip slot

/-- Updates the height of a node whose two subtrees are balanced, and repairs the node if they
differ by more than one. The answer is the slot of the subtree's new root. -/
def rebalance (slot : Slot) : Edit K V Slot := do
  updateHeight slot
  let tilt ← (← get).tilt .left slot
  if 1 < tilt then repair .left slot
  else if tilt < -1 then repair .right slot
  else return slot

end OrderedMaps.Avl
