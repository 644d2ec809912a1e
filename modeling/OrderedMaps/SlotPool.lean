import OrderedMaps.Fault

/-!
# Slot pools

A pool keeps elements in numbered slots. A slot is taken when an element is added and given back
when the element is released; a slot that was given back is taken again before a new one is made,
the latest first.

* `SlotPool.get?`, `SlotPool.read`: the element in a slot.
* `SlotPool.write`: changes the element in a slot.
* `SlotPool.allocate`, `SlotPool.release`: add and take out an element.
* `SlotPool.clear`: takes out all elements, and unmakes the slots.
* `SlotPool.size`: the number of elements.
-/

namespace OrderedMaps

/-- Elements in numbered slots. -/
structure SlotPool (α : Type) where
  /-- The slots, in the order of their numbers. -/
  slots : Array (Option α) := #[]
  /-- The empty slots, the one that was given back last in front. -/
  free : List Slot := []
  deriving DecidableEq

namespace SlotPool

variable {α : Type}

def empty : SlotPool α := {}

/-- The number of elements: every slot holds one, except the free ones. -/
def size (pool : SlotPool α) : Nat := pool.slots.size - pool.free.length

/-- The element in `slot`, if it holds one. -/
def get? (pool : SlotPool α) (slot : Slot) : Option α :=
  (pool.slots[slot]?).join

def read (pool : SlotPool α) (slot : Slot) : Except Fault α :=
  match pool.get? slot with
  | some a => .ok a
  | none => .error (.deadSlot slot)

/-- The pool with the element in `slot` changed by `f`. -/
def write (pool : SlotPool α) (slot : Slot) (f : α → α) : Except Fault (SlotPool α) :=
  match pool.get? slot with
  | some a => .ok { pool with slots := pool.slots.setIfInBounds slot (some (f a)) }
  | none => .error (.deadSlot slot)

/-- Puts `a` into the slot given back last, or into a new one if every slot is taken. -/
def allocate (pool : SlotPool α) (a : α) : Slot × SlotPool α :=
  match pool.free with
  | slot :: free => (slot, { slots := pool.slots.setIfInBounds slot (some a), free })
  | [] => (pool.slots.size, { pool with slots := pool.slots.push (some a) })

/-- Takes the element out of `slot` and gives the slot back. -/
def release (pool : SlotPool α) (slot : Slot) : Except Fault (α × SlotPool α) :=
  match pool.get? slot with
  | some a =>
      .ok (a, { slots := pool.slots.setIfInBounds slot none, free := slot :: pool.free })
  | none => .error (.deadSlot slot)

/-- Takes out all elements. No slot is left, so that the next one is the first. -/
def clear (pool : SlotPool α) : SlotPool α := { pool with slots := #[], free := [] }

theorem read_eq_ok_iff {pool : SlotPool α} {slot : Slot} {a : α} :
    pool.read slot = .ok a ↔ pool.get? slot = some a := by
  unfold read
  cases pool.get? slot <;> simp

@[simp] theorem get?_empty (slot : Slot) : (empty : SlotPool α).get? slot = none := by
  simp [empty, get?]

@[simp] theorem size_empty : (empty : SlotPool α).size = 0 := rfl

/-- A pool that was emptied is as good as new. -/
@[simp] theorem clear_eq (pool : SlotPool α) : pool.clear = empty := rfl

end SlotPool

end OrderedMaps
