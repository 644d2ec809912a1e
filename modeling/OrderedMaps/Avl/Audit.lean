import OrderedMaps.Avl.Walk
import OrderedMaps.Text.Literal

/-!
# Audits of binary trees

An audit checks everything that is to hold of a tree, and stops at the first violation.

* `Avl.Violation`: what can be wrong, with `Avl.Violation.message`.
* `Avl.Tree.auditNode`: links, balance, heights and stamps of a subtree.
* `Avl.Tree.audit`: these for the whole tree, then its counts, the order of its keys, and the
  walk through its nodes.
-/

namespace OrderedMaps.Avl

/-- What an audit of a binary tree can find wrong. -/
inductive Violation (K : Type) where
  | rootHasParent (root : Slot)
  /-- A child does not name the node above as its parent. -/
  | wrongParent (child slot : Slot) (key : K) (parent : Option Slot)
  /-- The subtrees of a node differ in height by more than one. -/
  | unbalanced (slot : Slot) (key : K) (left right : Int)
  /-- The stored height of a node is not one more than that of its higher subtree. -/
  | staleHeight (slot : Slot) (key : K)
  /-- A node was written at a version that is still to come. -/
  | futureStamp (slot : Slot) (stamp version : Nat)
  /-- The number of nodes below the root is not the number of entries. -/
  | wrongCount (reachable size : Nat)
  /-- The number of nodes in the pool is not the number of entries. -/
  | wrongPoolSize (live size : Nat)
  /-- A key is not below the key after it. -/
  | outOfOrder (key next : K)
  /-- The walk did not visit as many nodes as there are entries. -/
  | wrongWalk (walked size : Nat)

/-- The written form of a link. -/
def linkText : Option Slot → String
  | none => "None"
  | some slot => s!"Some({slot.text})"

/-- The text that tells a person what is wrong. -/
def Violation.message {K : Type} [Literal K] : Violation K → String
  | rootHasParent root => s!"root {root.text} has a parent"
  | wrongParent child slot key parent =>
      s!"child {child.text} of {slot.text} (key {Literal.text key}) has parent {linkText parent}"
  | unbalanced slot key left right =>
      s!"node {slot.text} (key {Literal.text key}) unbalanced: left height {left}, " ++
        s!"right height {right}"
  | staleHeight slot key => s!"node {slot.text} (key {Literal.text key}) has stale height"
  | futureStamp slot stamp version =>
      s!"node {slot.text} stamped {stamp} after version {version}"
  | wrongCount reachable size => s!"reachable nodes {reachable} != len {size}"
  | wrongPoolSize live size => s!"live arena slots {live} != len {size}"
  | outOfOrder key next => s!"keys out of order: {Literal.text key} then {Literal.text next}"
  | wrongWalk walked size => s!"successor walk visited {walked} of {size} nodes"

variable {K V : Type}

/-- Asserts a condition, the failure of which is a violation. -/
def expect {m : Type → Type} [Monad m] (holds : Bool) (violation : Violation K) :
    ExceptT (Violation K) m Unit :=
  if holds then pure () else throw violation

namespace Tree

/-- The child, if there is one, names the node in `slot` as its parent. -/
def auditParent (tree : Tree K V) (slot : Slot) (key : K) :
    Option Slot → ExceptT (Violation K) (Except Fault) Unit
  | none => return ()
  | some child => do
      let parent := (← tree.node child).parent
      expect (parent == some slot) (.wrongParent child slot key parent)

/-- Checks a subtree. The answer is its height and its keys in order. -/
def auditNode (tree : Tree K V) (version : Nat) :
    Nat → Option Slot → ExceptT (Violation K) (Except Fault) (Int × List K)
  | _, none => return (-1, [])
  | 0, some _ => throwThe Fault .endlessPath
  | steps + 1, some slot => do
      let node ← tree.node slot
      tree.auditParent slot node.key node.left
      tree.auditParent slot node.key node.right
      let (left, smaller) ← auditNode tree version steps node.left
      let (right, larger) ← auditNode tree version steps node.right
      expect (-1 ≤ left - right && left - right ≤ 1) (.unbalanced slot node.key left right)
      expect (node.height == 1 + max left right) (.staleHeight slot node.key)
      expect (node.stamp ≤ version) (.futureStamp slot node.stamp version)
      return (node.height, smaller ++ node.key :: larger)

/-- Checks that each key is below the next. -/
def auditOrder (cmp : Comparator K) : List K → ExceptT (Violation K) (Run K V) Unit
  | [] => return ()
  | [_] => return ()
  | key :: next :: rest => do
      let order ← (cmp.ask key next : Run K V Ordering)
      expect order.isLT (.outOfOrder key next)
      auditOrder cmp (next :: rest)

/-- Checks a tree at a given version. -/
def audit (tree : Tree K V) (cmp : Comparator K) (version : Nat) :
    Run K V (Except (Violation K) Unit) := ExceptT.run do
  if let some root := tree.root then
    expect (← tree.node root).parent.isNone (.rootHasParent root)
  let keys ← match ← (tree.auditNode version tree.pathBound tree.root).run with
    | .ok (_, keys) => pure keys
    | .error violation => throw violation
  expect (keys.length == tree.size) (.wrongCount keys.length tree.size)
  expect (tree.pool.size == tree.size) (.wrongPoolSize tree.pool.size tree.size)
  auditOrder cmp keys
  let walked := (← tree.slots).length
  expect (walked == tree.size) (.wrongWalk walked tree.size)

end Tree

end OrderedMaps.Avl
