import OrderedMaps.Comparator
import OrderedMaps.Fault

/-!
# Journals

What an operation does beside computing its result: it asks the comparator, it takes steps that
are worth noting, and it shows values to update functions. A journal keeps all three in the order
in which they happen.

* `Event`: a noteworthy step.
* `Event.line?`: its log line, for the steps that have one.
* `Journal`: comparisons, events and values shown.
* `Run`: a computation that keeps a journal and may end in a fault.
* `Comparator.ask`, `record`, `recordShown`: the three ways to write into the journal.
-/

namespace OrderedMaps

/-- One of the two sides of a binary node. -/
inductive Side where
  | left
  | right
  deriving DecidableEq

namespace Side

def flip : Side → Side
  | left => right
  | right => left

@[simp] theorem flip_flip (side : Side) : side.flip.flip = side := by cases side <;> rfl

/-- The word for a side. -/
def text : Side → String
  | left => "left"
  | right => "right"

/-- The side on which a key lies that compares so with the key of a node; none, if they are
equal. -/
def ofOrdering? : Ordering → Option Side
  | .lt => some left
  | .gt => some right
  | .eq => none

theorem ofOrdering?_swap (order : Ordering) :
    ofOrdering? order.swap = (ofOrdering? order).map flip := by cases order <;> rfl

theorem ofOrdering?_eq_none_iff {order : Ordering} : ofOrdering? order = none ↔ order = .eq := by
  cases order <;> simp [ofOrdering?]

end Side

/-- A noteworthy step. Steps that rearrange a multi-way tree carry the numbers of keys of the
nodes that they work on. -/
inductive Event where
  | createdBinary
  | createdMultiway (degree : Nat)
  | clearedBinary (entries : Nat)
  | clearedMultiway (entries : Nat)
  /-- No map could be made for want of a comparator. -/
  | refusedComparator
  /-- No map could be made because of its degree. -/
  | refusedDegree (degree : Nat)
  /-- The subtrees of `node` were found to differ in height by more than one. -/
  | unbalanced (node : Slot) (heavy : Side)
  /-- `node` sank to one side and its child `pivot` took its place. -/
  | rotated (toward : Side) (node pivot : Slot)
  /-- A full root was put under a new one. -/
  | splittingRoot (degree : Nat)
  /-- A child of `childKeys` keys, at `position` of a node of `parentKeys` keys, is cut in two. -/
  | splitting (position degree childKeys parentKeys : Nat)
  /-- The child at `position` gets a key by way of its parent from its sibling on one side, which
  has `donorKeys`. -/
  | borrowing (donor : Side) (position donorKeys : Nat)
  /-- The child at `position`, of `leftKeys` keys, is joined with its right sibling, of
  `rightKeys` keys. -/
  | merging (position leftKeys rightKeys : Nat)
  /-- A root without keys is replaced by its only child. -/
  | collapsingRoot
  /-- A range scan met a key that is not below the upper bound. -/
  | scanStopped
  /-- An insertion reached a node of `keys` keys. -/
  | insertingInto (keys : Nat)
  /-- A removal of a key reached a node of `keys` keys. -/
  | removingFrom (atRoot : Bool) (keys : Nat)
  /-- A removal of the outermost entry on one side reached a node of `keys` keys. -/
  | poppingFrom (side : Side) (keys : Nat)
  deriving DecidableEq

/-- The log line of an event: its level, its message and its numbers. Visits of nodes and the
finding that a node is unbalanced are not logged. -/
def Event.line? : Event → Option String
  | createdBinary => some "DEBUG created empty binary tree"
  | createdMultiway degree => some s!"DEBUG created empty multi-way tree degree={degree}"
  | clearedBinary entries => some s!"DEBUG clearing binary tree entries={entries}"
  | clearedMultiway entries => some s!"DEBUG clearing multi-way tree entries={entries}"
  | refusedComparator => some "DEBUG rejecting tree configuration without a comparator"
  | refusedDegree degree =>
      some s!"DEBUG rejecting tree configuration with invalid degree degree={degree}"
  | unbalanced _ _ => none
  | rotated toward node pivot =>
      some s!"TRACE rotate {toward.text} node={node.text} pivot={pivot.text}"
  | splittingRoot degree => some s!"TRACE splitting full root degree={degree}"
  | splitting position degree _ _ =>
      some s!"TRACE splitting child pos={position} degree={degree}"
  | borrowing donor position _ =>
      some s!"TRACE borrowing from {donor.text} sibling pos={position}"
  | merging position _ _ => some s!"TRACE merging children pos={position}"
  | collapsingRoot => some "TRACE collapsing empty root"
  | scanStopped => some "TRACE range scan stopped at upper bound"
  | insertingInto _ => none
  | removingFrom _ _ => none
  | poppingFrom _ _ => none

/-- What happened so far, in order. -/
structure Journal (K V : Type) where
  /-- The pairs that the comparator was asked about. -/
  calls : Array (K × K) := #[]
  events : Array Event := #[]
  /-- The values that were shown to update functions. -/
  shown : Array V := #[]
  deriving DecidableEq

/-- The log lines of a journal. -/
def Journal.lines {K V : Type} (journal : Journal K V) : List String :=
  journal.events.toList.filterMap Event.line?

/-- A computation that keeps a journal and may end in a fault. -/
abbrev Run (K V : Type) := StateT (Journal K V) (Except Fault)

/-- Asks for the order of two keys. Comparisons are numbered by their place in the journal. -/
def Comparator.ask {K V : Type} (c : Comparator K) (a b : K) : Run K V Ordering :=
  fun ⟨calls, events, shown⟩ =>
    .ok (c.answer calls.size a b, ⟨calls.push (a, b), events, shown⟩)

def record {K V : Type} (event : Event) : Run K V Unit :=
  fun ⟨calls, events, shown⟩ => .ok ((), ⟨calls, events.push event, shown⟩)

/-- Notes that a value is shown to an update function. -/
def recordShown {K V : Type} (value : V) : Run K V Unit :=
  fun ⟨calls, events, shown⟩ => .ok ((), ⟨calls, events, shown.push value⟩)

end OrderedMaps
