import OrderedMaps.BTree.Insert
import OrderedMaps.Text.Listing

/-!
# Audits of multi-way trees

An audit checks everything that is to hold of a tree, and stops at the first violation.

* `BTree.Violation`: what can be wrong, with `BTree.Violation.message`.
* `BTree.Node.audit`: checks a subtree between two bounds.
* `BTree.Tree.audit`: checks a tree.
-/

namespace OrderedMaps.BTree

/-- What an audit of a multi-way tree can find wrong. -/
inductive Violation (K : Type) where
  | overfull (keys : List K) (depth degree : Nat)
  /-- A node below the root has too few keys. -/
  | underfull (keys : List K) (depth degree : Nat)
  /-- A node has not as many values as keys. -/
  | unpairedValues (keys : List K)
  /-- A key of a node is not below the next one. -/
  | unsorted (keys : List K)
  /-- A key is not above the separator to the left of its node. -/
  | notAbove (key separator : K)
  /-- A key is not below the separator to the right of its node. -/
  | notBelow (key separator : K)
  /-- A leaf is not as deep as the first one. -/
  | unevenLeaf (keys : List K) (depth expected : Nat)
  /-- An inner node has not one child more than keys. -/
  | wrongFanOut (keys : List K) (children : Nat)
  | bareRoot
  /-- The number of keys below the root is not the number of entries. -/
  | wrongCount (stored size : Nat)

/-- The text that tells a person what is wrong. -/
def Violation.message {K : Type} [Literal K] : Violation K → String
  | overfull keys depth degree =>
      s!"node {Listing.list keys} at depth {depth} overfull (t={degree})"
  | underfull keys depth degree =>
      s!"node {Listing.list keys} at depth {depth} underfull (t={degree})"
  | unpairedValues keys => s!"node {Listing.list keys} keys/values length mismatch"
  | unsorted keys => s!"keys not sorted: {Listing.list keys}"
  | notAbove key separator =>
      s!"key {Literal.text key} not above separator {Literal.text separator}"
  | notBelow key separator =>
      s!"key {Literal.text key} not below separator {Literal.text separator}"
  | unevenLeaf keys depth expected =>
      s!"leaf {Listing.list keys} at depth {depth}, expected {expected}"
  | wrongFanOut keys children => s!"internal node {Listing.list keys} has {children} children"
  | bareRoot => "internal root has no keys"
  | wrongCount stored size => s!"stored keys {stored} != len {size}"

variable {K V : Type}

/-- A computation that compares keys and stops at the first violation. -/
abbrev Audit (K V : Type) := ExceptT (Violation K) (Run K V)

/-- Asserts a condition, the failure of which is a violation. -/
def expect (holds : Bool) (violation : Violation K) : Audit K V Unit :=
  if holds then pure () else throw violation

/-- Asserts that one key is below another. -/
def expectBelow (cmp : Comparator K) (a b : K) (violation : Violation K) : Audit K V Unit := do
  let order ← (cmp.ask a b : Run K V Ordering)
  expect order.isLT violation

/-- Checks that each key is below the next. -/
def auditOrder (cmp : Comparator K) (violation : Violation K) : List K → Audit K V Unit
  | [] => return ()
  | [_] => return ()
  | key :: next :: rest => do
      expectBelow cmp key next violation
      auditOrder cmp violation (next :: rest)

/-- Checks the number of keys and values of a node, the order of its keys, and its outermost keys
against the separators on its two sides, where there are any. -/
def auditKeys (cmp : Comparator K) (t : Nat) (atRoot : Bool) (depth : Nat)
    (lower upper : Option K) (keys : List K) (values : List V) : Audit K V Unit := do
  expect (keys.length ≤ 2 * t - 1) (.overfull keys depth t)
  expect (atRoot || t - 1 ≤ keys.length) (.underfull keys depth t)
  expect (keys.length == values.length) (.unpairedValues keys)
  auditOrder cmp (.unsorted keys) keys
  if let (some lower, some first) := (lower, keys.head?) then
    expectBelow cmp lower first (.notAbove first lower)
  if let (some upper, some last) := (upper, keys.getLast?) then
    expectBelow cmp last upper (.notBelow last upper)

/-- Checks the depth of a leaf against that of the first leaf, if there was one before. -/
def auditDepth (depth : Nat) (leafDepth : Option Nat) (keys : List K) : Audit K V Nat := do
  match leafDepth with
  | none => return depth
  | some expected =>
      expect (depth == expected) (.unevenLeaf keys depth expected)
      return expected

namespace Node

mutual

/-- Checks a subtree between two bounds. The answer is the number of its keys, and the depth of
the first leaf, which is carried from leaf to leaf. -/
def audit (cmp : Comparator K) (t : Nat) (atRoot : Bool) (depth : Nat) (leafDepth : Option Nat)
    (lower upper : Option K) : Node K V → Audit K V (Nat × Option Nat)
  | ⟨keys, values, children⟩ => do
      auditKeys cmp t atRoot depth lower upper keys values
      if children.isEmpty then
        return (keys.length, some (← auditDepth depth leafDepth keys))
      expect (children.length == keys.length + 1) (.wrongFanOut keys children.length)
      expect (!atRoot || 1 ≤ keys.length) .bareRoot
      let (count, leafDepth) ←
        auditIn cmp t (depth + 1) leafDepth lower upper children keys
      return (keys.length + count, leafDepth)

/-- Checks the given subtrees. Each has the given keys to its two sides as bounds, the outermost
ones the bounds of the node itself. -/
def auditIn (cmp : Comparator K) (t : Nat) (depth : Nat) (leafDepth : Option Nat)
    (lower upper : Option K) :
    List (Node K V) → List K → Audit K V (Nat × Option Nat)
  | [], _ => return (0, leafDepth)
  | child :: children, keys => do
      let (count, leafDepth) ←
        child.audit cmp t false depth leafDepth lower (keys.head?.or upper)
      let (rest, leafDepth) ←
        auditIn cmp t depth leafDepth keys.head? upper children (keys.drop 1)
      return (count + rest, leafDepth)

end

end Node

/-- Checks a tree of degree `t`. -/
def Tree.audit (cmp : Comparator K) (t : Nat) (tree : Tree K V) :
    Run K V (Except (Violation K) Unit) := ExceptT.run do
  let (count, _) ← tree.root.audit cmp t true 0 none none none
  expect (count == tree.size) (.wrongCount count tree.size)

end OrderedMaps.BTree
