import OrderedMaps.Journal
import OrderedMaps.SlotPool

/-!
# Height-balanced binary trees

The nodes of a tree live in a pool and refer to each other by their slots: down to their children,
and up to their parent, which is how a walk through the entries finds its way.

* `Avl.Node`, `Avl.Tree`: a node and a tree.
* `Avl.Tree.heightAt`, `Avl.Tree.tilt`: stored heights and their difference at a node.
* `Avl.Edit`: a computation that changes a tree.
* `Avl.readNode`, `Avl.writeNode`, `Avl.addNode`, `Avl.removeNode`, `Avl.clear`: its elementary
  steps.
* `Avl.note`, `Avl.ask`, `Avl.noteShown`: its entries in the journal.
* `Avl.setChild`, `Avl.adoptRoot`, `Avl.updateHeight`: links and heights.
-/

namespace OrderedMaps.Avl

/-- An entry and its place in the tree. -/
structure Node (K V : Type) where
  key : K
  value : V
  /-- The number of levels below the node. -/
  height : Int := 0
  /-- The root of the subtree of smaller keys. -/
  left : Option Slot := none
  /-- The root of the subtree of larger keys. -/
  right : Option Slot := none
  parent : Option Slot := none
  /-- The version of the write that last touched the entry. -/
  stamp : Nat
  deriving DecidableEq

/-- The child on one side. -/
def Node.child {K V : Type} (node : Node K V) : Side → Option Slot
  | .left => node.left
  | .right => node.right

/-- The node with another child on one side. -/
def Node.withChild {K V : Type} (node : Node K V) (side : Side) (child : Option Slot) :
    Node K V :=
  match side with
  | .left => { node with left := child }
  | .right => { node with right := child }

/-- A pool of linked nodes, the node where descents start, and the number of entries. -/
structure Tree (K V : Type) where
  pool : SlotPool (Node K V) := {}
  root : Option Slot := none
  size : Nat := 0
  deriving DecidableEq

namespace Tree

variable {K V : Type}

def empty : Tree K V := {}

/-- The node in a slot. -/
def node (tree : Tree K V) (slot : Slot) : Except Fault (Node K V) := tree.pool.read slot

/-- The key and value in a slot. -/
def entry (tree : Tree K V) (slot : Slot) : Except Fault (K × V) := do
  let node ← tree.node slot
  return (node.key, node.value)

/-- No path is longer than the number of slots, unless it runs in a circle. -/
def pathBound (tree : Tree K V) : Nat := tree.pool.slots.size

/-- The stored height of a subtree; the empty one is one below a leaf. -/
def heightAt (tree : Tree K V) : Option Slot → Except Fault Int
  | none => return -1
  | some slot => return (← tree.node slot).height

/-- By how much the subtree on one side of a node is higher than that on the other. -/
def tilt (tree : Tree K V) (side : Side) (slot : Slot) : Except Fault Int := do
  let node ← tree.node slot
  return (← tree.heightAt (node.child side)) - (← tree.heightAt (node.child side.flip))

end Tree

/-- A computation that changes a tree, keeps a journal and may end in a fault. -/
abbrev Edit (K V : Type) := StateT (Tree K V) (Run K V)

variable {K V : Type}

/-! ## Elementary steps -/

/-- The node in a slot. -/
def readNode (slot : Slot) : Edit K V (Node K V) := do
  (← get).node slot

/-- Changes the node in a slot. -/
def writeNode (slot : Slot) (f : Node K V → Node K V) : Edit K V Unit :=
  fun ⟨pool, root, size⟩ => do
    let pool ← pool.write slot f
    return ((), ⟨pool, root, size⟩)

/-- Puts a new node into a slot of its own. -/
def addNode (node : Node K V) : Edit K V Slot :=
  fun ⟨pool, root, size⟩ =>
    let (slot, pool) := pool.allocate node
    return (slot, ⟨pool, root, size + 1⟩)

/-- Takes a node out and gives back its slot. -/
def removeNode (slot : Slot) : Edit K V (Node K V) :=
  fun ⟨pool, root, size⟩ => do
    let (node, pool) ← pool.release slot
    match size with
    | 0 => throw Fault.countBelowZero
    | size + 1 => return (node, ⟨pool, root, size⟩)

/-- Takes all nodes out. -/
def clear : Edit K V Unit :=
  modify fun tree => { tree with pool := tree.pool.clear, root := none, size := 0 }

def note (event : Event) : Edit K V Unit :=
  (record event : Run K V Unit)

/-- Asks for the order of two keys. -/
def ask (cmp : Comparator K) (a b : K) : Edit K V Ordering :=
  (cmp.ask a b : Run K V Ordering)

/-- Notes that a value is shown to an update function. -/
def noteShown (value : V) : Edit K V Unit :=
  (recordShown value : Run K V Unit)

/-! ## Links and heights -/

/-- Hangs a subtree under a node, with links both ways. -/
def setChild (side : Side) (slot : Slot) (child : Option Slot) : Edit K V Unit := do
  writeNode slot (·.withChild side child)
  if let some child := child then
    writeNode child ({ · with parent := some slot })

/-- Makes a subtree the whole tree. -/
def adoptRoot (root : Option Slot) : Edit K V Unit := do
  modify ({ · with root })
  if let some root := root then
    writeNode root ({ · with parent := none })

/-- Makes the stored height of a node fit the stored heights of its children. -/
def updateHeight (slot : Slot) : Edit K V Unit := do
  let tree ← get
  let node ← tree.node slot
  let left ← tree.heightAt node.left
  let right ← tree.heightAt node.right
  writeNode slot ({ · with height := 1 + max left right })

end OrderedMaps.Avl
