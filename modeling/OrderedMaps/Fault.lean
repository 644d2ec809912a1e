/-!
# Faults

A fault is a step that cannot be taken: a read of an empty slot, a position outside a list, a
descent below the leaves. No operation on a map that was made and changed through this library
leads to one. Faults are therefore no errors of a map, which callers have to expect, and have a
type of their own.

* `Slot`: the number of a place in a pool.
* `Fault`: the steps that cannot be taken.
* `countSince`: by how much a count has grown.
-/

namespace OrderedMaps

/-- The number of a place in a pool. -/
abbrev Slot := Nat

/-- The written form of a slot. -/
def Slot.text (slot : Slot) : String := s!"#{slot}"

/-- A step that cannot be taken. -/
inductive Fault where
  | deadSlot (slot : Slot)
  /-- A node was to be replaced by a child that it does not have. -/
  | missingChild (slot : Slot)
  | outOfRange (position length : Nat)
  /-- A path is longer than the structure allows, so that its links run in a circle or its leaves
  lie at different depths. -/
  | endlessPath
  /-- An entry was to be taken off a count of zero. -/
  | countBelowZero
  deriving DecidableEq

/-- By how much a count has grown since it was `before`. -/
def countSince (before count : Nat) : Except Fault Nat :=
  if before ≤ count then .ok (count - before) else .error .countBelowZero

theorem countSince_add (before added : Nat) : countSince before (before + added) = .ok added := by
  simp [countSince]

end OrderedMaps
